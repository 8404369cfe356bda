/-!
Blank characters and the trimming of text. Trimming removes a run of blanks at an end and leaves
everything between the first and the last character that is not blank.
-/

set_option autoImplicit false

namespace ResourceQuery.Text

/-- The characters of the Unicode property `White_Space`, of which `Char.isWhitespace` knows only
the ASCII part. -/
def isBlank (c : Char) : Bool :=
  let n := c.toNat
  (0x09 ≤ n && n ≤ 0x0D) || n == 0x20 || n == 0x85 || n == 0xA0 || n == 0x1680 ||
    (0x2000 ≤ n && n ≤ 0x200A) || n == 0x2028 || n == 0x2029 || n == 0x202F || n == 0x205F ||
    n == 0x3000

def trimLeft (cs : List Char) : List Char :=
  cs.dropWhile isBlank

def trimRight : List Char → List Char
  | [] => []
  | c :: rest =>
    match trimRight rest with
    | [] => if isBlank c then [] else [c]
    | kept => c :: kept

def allBlank (cs : List Char) : Bool :=
  cs.all isBlank

theorem trimLeft_eq_self {c : Char} {cs : List Char} (h : isBlank c = false) :
    trimLeft (c :: cs) = c :: cs := by
  simp [trimLeft, h]

theorem trimRight_cons_of_not_blank {c : Char} {cs : List Char} (h : isBlank c = false) :
    trimRight (c :: cs) = c :: trimRight cs := by
  rw [trimRight]
  cases trimRight cs <;> simp [h]

/-- Trimming at the right only ever drops a run of blanks. -/
theorem trimRight_append_blanks (cs : List Char) :
    ∃ blanks, cs = trimRight cs ++ blanks ∧ ∀ c ∈ blanks, isBlank c = true := by
  induction cs with
  | nil => exact ⟨[], rfl, by simp⟩
  | cons c rest ih =>
    obtain ⟨blanks, hrest, hblanks⟩ := ih
    cases hkept : trimRight rest with
    | nil =>
      rw [hkept, List.nil_append] at hrest
      cases hc : isBlank c with
      | true => exact ⟨c :: blanks, by simp [trimRight, hkept, hc, ← hrest], by simp_all⟩
      | false => exact ⟨blanks, by simp [trimRight, hkept, hc, ← hrest], hblanks⟩
    | cons d kept =>
      rw [hkept] at hrest
      exact ⟨blanks, by simp [trimRight, hkept, ← hrest], hblanks⟩

end ResourceQuery.Text
