import Codemod.Text.Offset

/-!
# Blanks

The characters that count as space around an argument: exactly those with the
Unicode property White_Space. Trimming takes them off both ends of a text and
leaves those inside alone.

## Main definitions

* `isBlank`: The White_Space property.
* `Text.trim`: A text without the blanks at its ends.

## Theorems

* `Text.trim_decompose`: Trimming removes blanks at the ends and nothing else.
-/

namespace Codemod

/-- The Unicode property White_Space. -/
def isBlank (c : Char) : Bool :=
  let n := c.toNat
  (0x09 ≤ n && n ≤ 0x0D) || n == 0x20 || n == 0x85 || n == 0xA0 || n == 0x1680 ||
    (0x2000 ≤ n && n ≤ 0x200A) || n == 0x2028 || n == 0x2029 || n == 0x202F ||
    n == 0x205F || n == 0x3000

namespace Text

def trimStart (s : Text) : Text := s.dropWhile isBlank

def trimEnd (s : Text) : Text := (s.reverse.dropWhile isBlank).reverse

/-- A text without the blanks at either end. -/
def trim (s : Text) : Text := trimEnd (trimStart s)

/-- What trimming takes away are blanks at the two ends. -/
theorem trim_decompose (s : Text) :
    ∃ l r : Text, s = l ++ trim s ++ r ∧ (∀ c ∈ l, isBlank c = true) ∧
      (∀ c ∈ r, isBlank c = true) := by
  refine ⟨s.takeWhile isBlank, ((trimStart s).reverse.takeWhile isBlank).reverse, ?_, ?_, ?_⟩
  -- Taking the end off and putting it back changes nothing.
  · have hr : trim s ++ ((trimStart s).reverse.takeWhile isBlank).reverse = trimStart s := by
      rw [trim, trimEnd, ← List.reverse_append, List.takeWhile_append_dropWhile,
        List.reverse_reverse]
    rw [List.append_assoc, hr, trimStart, List.takeWhile_append_dropWhile]
  · exact fun c hc => List.all_eq_true.1 (List.all_takeWhile) c hc
  · exact fun c hc => List.all_eq_true.1 (List.all_takeWhile) c (List.mem_reverse.1 hc)

theorem length_trim_le (s : Text) : (trim s).length ≤ s.length := by
  rcases trim_decompose s with ⟨l, r, hs, -, -⟩
  have hlength := congrArg List.length hs
  rw [List.length_append, List.length_append] at hlength
  omega

end Text

end Codemod
