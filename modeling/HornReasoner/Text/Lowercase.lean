import HornReasoner.Text.Case
import HornReasoner.Text.Category

/-! The lower case of a text. -/
namespace HornReasoner.Text

/-- The first character that is not case ignorable has a case. -/
def meetsCased (s : List Char) : Bool :=
  match s.dropWhile isCaseIgnorable with
  | c :: _ => isCased c
  | [] => false

/-- Maps each character; `before` holds the ones already met, last first. The capital
sigma that ends a word becomes the final one. -/
def lowercaseAfter (before : List Char) : List Char → List Char
  | [] => []
  | c :: rest =>
    let mapped :=
      if c = 'Σ' then
        if meetsCased before && !meetsCased rest then ['ς'] else ['σ']
      else if c = 'İ' then ['i', '\u0307']
      else [lower c]
    mapped ++ lowercaseAfter (c :: before) rest

def lowercase (s : List Char) : List Char := lowercaseAfter [] s

end HornReasoner.Text
