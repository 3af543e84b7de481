/-!
# Blank characters

A text is blank when it holds nothing but white space. White space here is the wide notion: the
ASCII controls that move the print position, the four information separators, and the space
separators, line and paragraph separators of Unicode.
-/

namespace VersionedGraph

namespace Text

def isBlank (c : Char) : Bool :=
  let n := c.toNat
  (0x09 ≤ n && n ≤ 0x0D) || (0x1C ≤ n && n ≤ 0x20) || n == 0x85 || n == 0xA0 || n == 0x1680 ||
    (0x2000 ≤ n && n ≤ 0x200A) || n == 0x2028 || n == 0x2029 || n == 0x202F || n == 0x205F ||
    n == 0x3000

/-- The ASCII white space characters: space, tab, line feed, vertical tab, form feed, return. -/
def isAsciiBlank (c : Char) : Bool :=
  let n := c.toNat
  (0x09 ≤ n && n ≤ 0x0D) || n == 0x20

theorem isBlank_of_isAsciiBlank {c : Char} (h : isAsciiBlank c = true) : isBlank c = true := by
  simp only [isAsciiBlank, isBlank, Bool.or_eq_true, Bool.and_eq_true, decide_eq_true_eq,
    beq_iff_eq] at h ⊢
  omega

def allBlank (s : String) : Bool :=
  s.toList.all isBlank

/-- The list without the leading and trailing characters of a class. -/
def trimBoth (p : Char → Bool) (cs : List Char) : List Char :=
  ((cs.dropWhile p).reverse.dropWhile p).reverse

@[simp] theorem trimBoth_nil (p : Char → Bool) : trimBoth p [] = [] := rfl

end Text

end VersionedGraph
