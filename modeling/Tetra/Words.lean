import Mathlib

/-!
Numbers in words of 32 bits, the least significant first: their value, its bits, its order,
and the carry that goes from word to word.
-/
namespace Tetra.Words

def value : List UInt32 → Nat
  | [] => 0
  | word :: words => word.toNat+2^32*value words

/-- A bit of the value; none is set past the last word. -/
def bit (words : List UInt32) (n : Nat) : Bool := (words[n/32]?.getD 0).toNat.testBit (n%32)

@[simp] theorem value_nil : value [] = 0 := rfl
@[simp] theorem value_cons (word : UInt32) (words : List UInt32) : value (word :: words) = word.toNat+2^32*value words := rfl

theorem word_power (word : UInt32) (words : List UInt32) : 2^(32*(word :: words).length) = 2^32*2^(32*words.length) := by
  rw [List.length_cons,← Nat.pow_add]
  congr 1
  omega

/-- The lowest word of a sum is taken from it, and what is over goes into the next. -/
theorem mod_word (low high M : Nat) : (low+2^32*high)%(2^32*M) = low%2^32+2^32*((low/2^32+high)%M) := by
  rw [Nat.mod_mul,Nat.add_mul_mod_self_left,Nat.add_mul_div_left _ _ (Nat.two_pow_pos 32)]

theorem value_lt (words : List UInt32) : value words < 2^(32*words.length) := by
  induction words with
  | nil => exact Nat.one_pos
  | cons word words ih =>
    have low := word.toNat_lt
    rw [value_cons,word_power]
    omega

theorem value_replicate_zero (n : Nat) : value (List.replicate n 0) = 0 := by
  induction n with
  | zero => rfl
  | succ n ih => rw [List.replicate_succ,value_cons,ih]; rfl

theorem value_append (low high : List UInt32) : value (low ++ high) = value low+2^(32*low.length)*value high := by
  induction low with
  | nil => simp
  | cons word low ih =>
    rw [List.cons_append,value_cons,value_cons,ih,word_power]
    ring

theorem value_inj {left right : List UInt32} (length : left.length = right.length) (same : value left = value right) : left = right := by
  induction left generalizing right with
  | nil => exact (List.length_eq_zero_iff.mp length.symm).symm
  | cons word left ih =>
    cases right with
    | nil => simp at length
    | cons other right =>
      rw [value_cons,value_cons] at same
      have low := word.toNat_lt
      have low' := other.toNat_lt
      have first : word = other := UInt32.toNat_inj.mp (by omega)
      rw [first,ih (by simpa using length) (by omega)]

theorem value_inj_iff {left right : List UInt32} (length : left.length = right.length) : value left = value right ↔ left = right :=
  ⟨value_inj length,congrArg value⟩

theorem testBit_value (words : List UInt32) (n : Nat) : (value words).testBit n = bit words n := by
  induction words generalizing n with
  | nil => simp [bit]
  | cons word words ih =>
    rw [value_cons,Nat.add_comm,Nat.testBit_two_pow_mul_add _ word.toNat_lt]
    by_cases low : n < 32
    · have here : n/32 = 0 := by omega
      rw [if_pos low,bit,here,Nat.mod_eq_of_lt low]
      rfl
    · have later : n/32 = (n-32)/32+1 := by omega
      rw [if_neg low,ih,bit,bit,later,List.getElem?_cons_succ]
      congr 1
      omega

theorem lt_of_bit {words : List UInt32} {n : Nat} (set : bit words n = true) : n/32 < words.length := by
  by_contra past
  rw [bit,List.getElem?_eq_none (not_lt.mp past)] at set
  simp at set

/-- Two numbers in as many words are equal if their bits are. -/
theorem value_eq_of_bits {words : List UInt32} {n : Nat} (low : n < 2^(32*words.length)) (same : ∀ i < 32*words.length, bit words i = n.testBit i) :
    value words = n := by
  apply Nat.eq_of_testBit_eq
  intro i
  rw [testBit_value]
  by_cases inside : i < 32*words.length
  · exact same i inside
  · have none : n.testBit i = false := Nat.testBit_lt_two_pow (low.trans_le (Nat.pow_le_pow_right (by decide) (by omega)))
    rw [none,← Bool.not_eq_true]
    intro set
    have := lt_of_bit set
    omega

/-- The word at the top decides, unless it is the same. -/
theorem value_concat_lt_iff {left right : List UInt32} (length : left.length = right.length) (a b : UInt32) :
    value (left ++ [a]) < value (right ++ [b]) ↔ a < b ∨ a = b ∧ value left < value right := by
  have low := value_lt left
  have low' := value_lt right
  rw [value_append,value_append,length,value_cons,value_cons,value_nil,UInt32.lt_iff_toNat_lt,← UInt32.toNat_inj]
  rw [length] at low
  generalize 2^(32*right.length) = B at low low'
  simp only [Nat.mul_zero,Nat.add_zero]
  rcases lt_trichotomy a.toNat b.toNat with less | same | more
  · have := Nat.mul_le_mul_left B (Nat.succ_le_of_lt less)
    rw [Nat.mul_succ] at this
    simp only [less,true_or,iff_true]
    omega
  · simp [same]
  · have := Nat.mul_le_mul_left B (Nat.succ_le_of_lt more)
    rw [Nat.mul_succ] at this
    constructor
    · omega
    · rintro (less | ⟨same,_⟩) <;> omega

theorem value_eq_zero_iff (words : List UInt32) : value words = 0 ↔ ∀ word ∈ words, word = 0 := by
  induction words with
  | nil => simp
  | cons word words ih =>
    have first : word.toNat = 0 ↔ word = 0 := by rw [← UInt32.toNat_inj]; rfl
    rw [value_cons,List.forall_mem_cons,← ih,← first]
    omega

/-- The complement takes the value from the greatest one. -/
theorem value_not (words : List UInt32) : value (words.map (~~~ ·))+value words = 2^(32*words.length)-1 := by
  induction words with
  | nil => rfl
  | cons word words ih =>
    have low := word.toNat_lt
    have high := Nat.two_pow_pos (32*words.length)
    have here : (~~~word).toNat = 2^32-1-word.toNat := UInt32.toNat_not word
    rw [List.map_cons,value_cons,value_cons,word_power,here]
    omega

/-- A word is or-ed to one of the words. -/
theorem bit_modify (words : List UInt32) (j : Nat) (word : UInt32) (n : Nat) :
    bit (words.modify j (· ||| word)) n = (bit words n || (decide (n/32 = j) && decide (j < words.length) && word.toNat.testBit (n%32))) := by
  unfold bit
  rw [List.getElem?_modify]
  by_cases here : j = n/32
  · subst here
    by_cases inside : n/32 < words.length
    · simp [inside,UInt32.toNat_or]
    · simp [inside]
  · simp [here,Ne.symm here]

theorem bit_modify_if {c : Prop} [Decidable c] (words : List UInt32) (j : Nat) (word : UInt32) {n : Nat} (inside : n/32 < words.length) :
    bit (if c then words.modify j (· ||| word) else words) n = (bit words n || (decide (c ∧ n/32 = j) && word.toNat.testBit (n%32))) := by
  by_cases holds : c
  · rw [if_pos holds,bit_modify]
    by_cases here : n/32 = j
    · simp [holds,here,here ▸ inside]
    · simp [here]
  · simp [holds]

theorem bit_shiftLeft (word : UInt32) {s : UInt32} (small : s.toNat < 32) {r : Nat} (low : r < 32) :
    (word <<< s).toNat.testBit r = (decide (s.toNat ≤ r) && word.toNat.testBit (r-s.toNat)) := by
  rw [UInt32.toNat_shiftLeft,Nat.mod_eq_of_lt small,Nat.testBit_mod_two_pow,Nat.testBit_shiftLeft]
  simp [low]

theorem bit_shiftRight (word : UInt32) {s : UInt32} (small : s.toNat < 32) (r : Nat) :
    (word >>> s).toNat.testBit r = (decide (s.toNat+r < 32) && word.toNat.testBit (s.toNat+r)) := by
  rw [UInt32.toNat_shiftRight,Nat.mod_eq_of_lt small,Nat.testBit_shiftRight]
  by_cases inside : s.toNat+r < 32
  · simp [inside]
  · have none : word.toNat.testBit (s.toNat+r) = false := Nat.testBit_lt_two_pow (word.toNat_lt.trans_le (Nat.pow_le_pow_right (by decide) (by omega)))
    simp [none]

/-- Turns that each or some bits to as many words as there are. -/
theorem bit_foldl {turn : List UInt32 → Nat → List UInt32} {size : Nat} {added : Nat → Nat → Bool} (keeps : ∀ words i, (turn words i).length = words.length)
    (adds : ∀ words i n, i < size → words.length = size → n < 32*size → bit (turn words i) n = (bit words n || added i n)) {m : Nat} (most : m ≤ size)
    {n : Nat} (inside : n < 32*size) : bit ((List.range m).foldl turn (List.replicate size 0)) n = (List.range m).any (added · n) := by
  have length (m : Nat) : ((List.range m).foldl turn (List.replicate size 0)).length = size := by
    induction m with
    | zero => simp
    | succ m ih => rw [List.range_succ,List.foldl_append,List.foldl_cons,List.foldl_nil,keeps,ih]
  induction m with
  | zero =>
    have row : n/32 < size := by omega
    simp [bit,row]
  | succ m ih =>
    rw [List.range_succ,List.foldl_append,List.foldl_cons,List.foldl_nil,adds _ m n (by omega) (length m) inside,ih (by omega),List.any_append]
    simp

end Tetra.Words
