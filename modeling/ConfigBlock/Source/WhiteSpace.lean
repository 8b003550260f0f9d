/-!
# Unicode white space

Comments and header lines are cut at every character with the Unicode property
`White_Space`, a wider class than the blanks between the parts of an entry.
-/

namespace ConfigBlock
namespace WhiteSpace

/-- The ranges of the property, in increasing order. -/
def ranges : List (Nat × Nat) :=
  [(0x09, 0x0D), (0x20, 0x20), (0x85, 0x85), (0xA0, 0xA0), (0x1680, 0x1680),
   (0x2000, 0x200A), (0x2028, 0x2029), (0x202F, 0x202F), (0x205F, 0x205F), (0x3000, 0x3000)]

def isWhite (c : Char) : Bool :=
  ranges.any fun r => r.1 ≤ c.toNat && c.toNat ≤ r.2

/-- Remove white space from both ends. -/
def trim (text : List Char) : List Char :=
  ((text.dropWhile isWhite).reverse.dropWhile isWhite).reverse

/-- The last word of a text, words being the maximal runs free of white space;
empty if the text has none. -/
def lastWord (text : List Char) : List Char :=
  ((text.reverse.dropWhile isWhite).takeWhile (!isWhite ·)).reverse

@[simp] theorem lastWord_nil : lastWord [] = [] := rfl

theorem mem_of_mem_trim {c : Char} {text : List Char} (h : c ∈ trim text) : c ∈ text := by
  simp only [trim, List.mem_reverse] at h
  have h₁ := (List.dropWhile_sublist isWhite).subset h
  exact (List.dropWhile_sublist isWhite).subset (List.mem_reverse.1 h₁)

theorem isWhite_of_mem_lastWord {c : Char} {text : List Char} (h : c ∈ lastWord text) :
    isWhite c = false := by
  simp only [lastWord, List.mem_reverse] at h
  simpa using List.all_eq_true.1 List.all_takeWhile c h

end WhiteSpace
end ConfigBlock
