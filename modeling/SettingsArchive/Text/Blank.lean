/-!
# Blank characters

A blank is a character with the Unicode property `White_Space`.  Numbers
and encoded bytes are read after the blanks around them are cut off, and
the name of a location may not begin or end with one.

`trim_of_noBlank` says that a text without blanks is its own trimmed form,
which is why a written number reads back.
-/

namespace SettingsArchive.Text

/-- The characters with the Unicode property `White_Space`.  The zero-width
space and the byte order mark are not among them. -/
def isBlank (c : Char) : Bool :=
  let n := c.toNat
  (9 ≤ n && n ≤ 13) || n == 0x20 || n == 0x85 || n == 0xA0 || n == 0x1680
    || (0x2000 ≤ n && n ≤ 0x200A) || n == 0x2028 || n == 0x2029
    || n == 0x202F || n == 0x205F || n == 0x3000

/-- The characters without the blanks at their two ends. -/
def trim (cs : List Char) : List Char :=
  ((cs.dropWhile isBlank).reverse.dropWhile isBlank).reverse

/-- Nothing is cut off characters that do not begin with a blank. -/
theorem dropWhile_isBlank_of_all {cs : List Char}
    (h : ∀ c ∈ cs, isBlank c = false) : cs.dropWhile isBlank = cs := by
  cases cs with
  | nil => rfl
  | cons c cs => simp [List.dropWhile, h c (by simp)]

/-- A text without blanks is its own trimmed form. -/
theorem trim_of_noBlank {cs : List Char}
    (h : ∀ c ∈ cs, isBlank c = false) : trim cs = cs := by
  have hr : ∀ c ∈ cs.reverse, isBlank c = false := by
    intro c hc
    exact h c (List.mem_reverse.1 hc)
  rw [trim, dropWhile_isBlank_of_all h, dropWhile_isBlank_of_all hr,
    List.reverse_reverse]

end SettingsArchive.Text
