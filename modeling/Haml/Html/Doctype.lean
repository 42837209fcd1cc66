import Haml.Text.Blank

/-!
# Document type declarations
-/

namespace Haml.Html

def standardDoctype : Text := "<!DOCTYPE html>"

def publicDoctype (name address : Text) : Text :=
  "<!DOCTYPE html PUBLIC \"-//" ++ name ++ "//EN\" \"http://" ++ address ++ "\">"

def xmlDeclaration (encoding : Text) : Text :=
  "<?xml version='1.0' encoding='" ++ encoding ++ "' ?>"

/-- The declaration that the given parameters ask for: a keyword, and for XML an
encoding. An unknown keyword and none at all ask for the current standard. -/
def doctype (parameters : Text) : Text :=
  match parameters.words with
  | [] => standardDoctype
  | keyword :: more =>
    if keyword = "XML" then xmlDeclaration (more.head?.getD "utf-8")
    else if keyword = "Strict" then
      publicDoctype "W3C//DTD XHTML 1.0 Strict" "www.w3.org/TR/xhtml1/DTD/xhtml1-strict.dtd"
    else if keyword = "Frameset" then
      publicDoctype "W3C//DTD XHTML 1.0 Frameset" "www.w3.org/TR/xhtml1/DTD/xhtml1-frameset.dtd"
    else if keyword = "1.1" then
      publicDoctype "W3C//DTD XHTML 1.1" "www.w3.org/TR/xhtml11/DTD/xhtml11.dtd"
    else if keyword = "Basic" then
      publicDoctype "W3C//DTD XHTML Basic 1.1" "www.w3.org/TR/xhtml-basic/xhtml-basic11.dtd"
    else if keyword = "Mobile" then
      publicDoctype "WAPFORUM//DTD XHTML Mobile 1.2"
        "www.openmobilealliance.org/tech/DTD/xhtml-mobile12.dtd"
    else if keyword = "RDFa" then
      publicDoctype "W3C//DTD XHTML+RDFa 1.0" "www.w3.org/MarkUp/DTD/xhtml-rdfa-1.dtd"
    else standardDoctype

end Haml.Html
