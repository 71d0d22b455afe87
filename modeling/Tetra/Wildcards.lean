import Mathlib

/-!
The masks of addresses that may use the RPC server: `'*'` stands for any string and `'?'`
for any one character.
-/
namespace Tetra

def asterisk : UInt8 := 42
def questionMark : UInt8 := 63

/-- `*p`, where a NUL follows the bytes of `p`. -/
def deref (p : List UInt8) : UInt8 := p.headD 0

theorem exists_tail {p : List UInt8} (more : deref p ≠ 0) : ∃ c rest, p = c :: rest ∧ c ≠ 0 := by
  cases p with
  | nil => exact absurd rfl more
  | cons c rest => exact ⟨c,rest,rfl,more⟩

/-- The loop goes on with the next character of both; a `'*'` is left, or takes one. -/
def WildcardMatch (psz mask : List UInt8) : Bool :=
  if deref mask = 0 then deref psz == 0
  else if deref mask = asterisk then WildcardMatch psz mask.tail || (if deref psz ≠ 0 then WildcardMatch psz.tail mask else false)
  else if deref mask = questionMark then
    if deref psz = 0 then false else WildcardMatch psz.tail mask.tail
  else if deref psz ≠ deref mask then false
  else WildcardMatch psz.tail mask.tail
termination_by (mask.length,psz.length)
decreasing_by
  all_goals
    obtain ⟨m,mask,rfl,_⟩ := exists_tail ‹deref mask ≠ 0›
    simp [Prod.lex_def]
  obtain ⟨c,psz,rfl,_⟩ := exists_tail ‹deref psz ≠ 0›
  simp

/-! ### The language of a mask -/

/-- What one character of a mask stands for. -/
def StandsFor (m : UInt8) (word : List UInt8) : Prop :=
  if m = asterisk then True
  else if m = questionMark then word.length = 1
  else word = [m]

def symbol (m : UInt8) : Language UInt8 := Set.ofPred (StandsFor m)

def maskLanguage (mask : List UInt8) : Language UInt8 := (mask.map symbol).prod

/-- The string at `p`: what stands before the first NUL. -/
def cstring (p : List UInt8) : List UInt8 := p.takeWhile (· ≠ 0)

theorem cstring_end {p : List UInt8} (done : deref p = 0) : cstring p = [] := by
  cases p with
  | nil => rfl
  | cons c rest =>
    have nul : c = 0 := done
    simp [cstring,nul]

theorem cstring_cons {c : UInt8} (visible : c ≠ 0) (rest : List UInt8) : cstring (c :: rest) = c :: cstring rest := by
  simp [cstring,visible]

theorem mem_maskLanguage_nil {word : List UInt8} : word ∈ maskLanguage [] ↔ word = [] := by
  simp [maskLanguage,Language.mem_one]

theorem mem_maskLanguage_cons {m : UInt8} {mask word : List UInt8} :
    word ∈ maskLanguage (m :: mask) ↔ ∃ front ∈ symbol m, ∃ rest ∈ maskLanguage mask, front ++ rest = word := by
  rw [maskLanguage,List.map_cons,List.prod_cons]
  exact Language.mem_mul

/-- A `'*'` stands for nothing, or for one character and whatever it stands for further on. -/
theorem mem_maskLanguage_asterisk {mask word : List UInt8} :
    word ∈ maskLanguage (asterisk :: mask) ↔ word ∈ maskLanguage mask ∨ ∃ c rest, word = c :: rest ∧ rest ∈ maskLanguage (asterisk :: mask) := by
  have any (front : List UInt8) : front ∈ symbol asterisk := by
    show StandsFor asterisk front
    simp [StandsFor]
  simp only [mem_maskLanguage_cons]
  constructor
  · rintro ⟨front,-,rest,inside,rfl⟩
    cases front with
    | nil => exact .inl inside
    | cons c front => exact .inr ⟨c,front ++ rest,rfl,front,any front,rest,inside,rfl⟩
  · rintro (inside | ⟨c,word,rfl,front,-,rest,inside,rfl⟩)
    · exact ⟨[],any [],word,inside,rfl⟩
    · exact ⟨c :: front,any (c :: front),rest,inside,rfl⟩

/-- A `'?'` stands for one character. -/
theorem mem_maskLanguage_questionMark {mask word : List UInt8} :
    word ∈ maskLanguage (questionMark :: mask) ↔ ∃ c rest, word = c :: rest ∧ rest ∈ maskLanguage mask := by
  have one (front : List UInt8) : front ∈ symbol questionMark ↔ front.length = 1 := by
    show StandsFor questionMark front ↔ _
    simp [StandsFor,questionMark,asterisk]
  simp only [mem_maskLanguage_cons,one]
  constructor
  · rintro ⟨front,single,rest,inside,rfl⟩
    obtain ⟨c,rfl⟩ := List.length_eq_one_iff.mp single
    exact ⟨c,rest,rfl,inside⟩
  · rintro ⟨c,rest,rfl,inside⟩
    exact ⟨[c],rfl,rest,inside,rfl⟩

/-- Any other character stands for itself. -/
theorem mem_maskLanguage_other {m : UInt8} (noStar : m ≠ asterisk) (noQuestion : m ≠ questionMark) {mask word : List UInt8} :
    word ∈ maskLanguage (m :: mask) ↔ ∃ rest, word = m :: rest ∧ rest ∈ maskLanguage mask := by
  have self (front : List UInt8) : front ∈ symbol m ↔ front = [m] := by
    show StandsFor m front ↔ _
    simp [StandsFor,noStar,noQuestion]
  simp only [mem_maskLanguage_cons,self]
  constructor
  · rintro ⟨_,rfl,rest,inside,rfl⟩
    exact ⟨rest,rfl,inside⟩
  · rintro ⟨rest,rfl,inside⟩
    exact ⟨[m],rfl,rest,inside,rfl⟩

theorem cstring_nil_iff {p : List UInt8} : cstring p = [] ↔ deref p = 0 := by
  constructor
  · intro none
    by_contra more
    obtain ⟨c,rest,rfl,visible⟩ := exists_tail more
    rw [cstring_cons visible] at none
    contradiction
  · exact cstring_end

/-- The match decides the language of the mask. -/
theorem WildcardMatch_iff (psz mask : List UInt8) : WildcardMatch psz mask = true ↔ cstring psz ∈ maskLanguage (cstring mask) := by
  fun_induction WildcardMatch psz mask with
  | case1 psz mask done => rw [cstring_end done,mem_maskLanguage_nil,cstring_nil_iff,beq_iff_eq]
  | case2 psz mask more here ih1 ih2 =>
    obtain ⟨m,mask,rfl,visible⟩ := exists_tail more
    obtain rfl : m = asterisk := here
    rw [cstring_cons visible,mem_maskLanguage_asterisk,Bool.or_eq_true,ih1,List.tail_cons]
    apply or_congr Iff.rfl
    by_cases left : deref psz = 0
    · simp [left,cstring_end left]
    · obtain ⟨c,psz,rfl,shown⟩ := exists_tail left
      rw [if_pos left,ih2 left,cstring_cons shown,cstring_cons visible,List.tail_cons]
      simp
  | case3 psz mask more other here left =>
    obtain ⟨m,mask,rfl,visible⟩ := exists_tail more
    obtain rfl : m = questionMark := here
    rw [cstring_cons visible,mem_maskLanguage_questionMark,cstring_end left]
    simp
  | case4 psz mask more other here left ih =>
    obtain ⟨m,mask,rfl,visible⟩ := exists_tail more
    obtain rfl : m = questionMark := here
    obtain ⟨c,psz,rfl,shown⟩ := exists_tail left
    rw [cstring_cons visible,mem_maskLanguage_questionMark,cstring_cons shown,ih]
    simp
  | case5 psz mask more noStar noQuestion differ =>
    obtain ⟨m,mask,rfl,visible⟩ := exists_tail more
    rw [cstring_cons visible,mem_maskLanguage_other (m := m) noStar noQuestion]
    by_cases left : deref psz = 0
    · simp [cstring_end left]
    · obtain ⟨c,psz,rfl,shown⟩ := exists_tail left
      have apart : c ≠ m := differ
      simp [cstring_cons shown,apart]
  | case6 psz mask more noStar noQuestion same ih =>
    obtain ⟨m,mask,rfl,visible⟩ := exists_tail more
    obtain ⟨c,psz,rfl,shown⟩ := exists_tail (show deref psz ≠ 0 from not_not.mp same ▸ visible)
    obtain rfl : c = m := not_not.mp same
    rw [cstring_cons visible,mem_maskLanguage_other (m := c) noStar noQuestion,cstring_cons shown,ih]
    simp

example : WildcardMatch [49,48,46,48,46,49] [49,48,46,asterisk,46,questionMark] = true := by simp [WildcardMatch,deref,asterisk,questionMark]

end Tetra
