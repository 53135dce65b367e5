/-! # White space

The characters with the Unicode property `White_Space`, and the trimming and splitting that they
govern. Text is a list of characters here, so that each function is a recursion on it.
-/
namespace PagedTree.Text

def isBlank (c : Char) : Bool :=
  let n := c.toNat
  0x9 ≤ n && n ≤ 0xD || n == 0x20 || n == 0x85 || n == 0xA0 || n == 0x1680 ||
    0x2000 ≤ n && n ≤ 0x200A || n == 0x2028 || n == 0x2029 || n == 0x202F || n == 0x205F ||
    n == 0x3000

def trimStart (s : List Char) : List Char := s.dropWhile isBlank

def trimEnd (s : List Char) : List Char := (s.reverse.dropWhile isBlank).reverse

def trim (s : List Char) : List Char := trimEnd (trimStart s)

/-- The stretches of `s` between the characters that satisfy `p`, empty ones included. -/
def splitAll (p : Char → Bool) : List Char → List (List Char)
  | [] => [[]]
  | c :: cs =>
    if p c then [] :: splitAll p cs else
      match splitAll p cs with
      | [] => [[c]]
      | w :: ws => (c :: w) :: ws

def words (s : List Char) : List (List Char) :=
  (splitAll isBlank s).filter fun w => !w.isEmpty

/-- What stands before the first blank and what stands after it; all of `s` and nothing if it
has no blank. -/
def splitFirst (s : List Char) : List Char × List Char :=
  (s.takeWhile fun c => !isBlank c, (s.dropWhile fun c => !isBlank c).drop 1)

end PagedTree.Text
