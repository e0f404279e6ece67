import ChainIndexer.Text.Blank
import ChainIndexer.Window

namespace ChainIndexer.Template

/-- The number is how many characters of an occurrence are still to be passed over. -/
def replaceFrom (pattern value : List Char) : Nat → List Char → List Char
  | _, [] => []
  | k + 1, _ :: r => replaceFrom pattern value k r
  | 0, c :: r =>
    if pattern.isPrefixOf (c :: r) then value ++ replaceFrom pattern value (pattern.length - 1) r
    else c :: replaceFrom pattern value 0 r

def replace (pattern value : List Char) (s : List Char) : List Char :=
  replaceFrom pattern value 0 s

def startMark : List Char := ['\x7b', 's', 't', 'a', 'r', 't', '\x7d']

def stopMark : List Char := ['\x7b', 'e', 'n', 'd', '\x7d']

def renderChars (template : List Char) (w : Window) : List Char :=
  replace stopMark (toString w.stop).toList (replace startMark (toString w.start).toList template)

def render (template : String) (w : Window) : String :=
  String.ofList (renderChars template.toList w)

end ChainIndexer.Template
