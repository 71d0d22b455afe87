import Mathlib
import Tetra.HexBuffers
import Tetra.Words

/-!
The numbers of a fixed width that hashes and work are: their operators are arithmetic
modulo the power of two, and their hexadecimal text reads back.
-/
namespace Tetra
open Words Codec Deer

/-- `WIDTH` words of 32 bits, the least significant first. -/
structure base_uint (BITS : Nat) where
  pn : List UInt32
  width : pn.length = BITS/32

namespace base_uint
variable {BITS : Nat}

/-! ### Loops over the words -/

/-- The turns of `operator+=` that are left. -/
def addLoop (carry : UInt64) : List UInt32 → List UInt32 → List UInt32
  | p :: pn, b :: bs =>
    let n := carry+p.toUInt64+b.toUInt64
    (n &&& 0xffffffff).toUInt32 :: addLoop (n >>> 32) pn bs
  | _, _ => []

/-- The turns of `operator++` that are left; the last word ends them. -/
def incLoop : List UInt32 → List UInt32
  | [] => []
  | p :: pn => if p+1 = 0 ∧ pn ≠ [] then (p+1) :: incLoop pn else (p+1) :: pn

def decLoop : List UInt32 → List UInt32
  | [] => []
  | p :: pn => if p-1 = 0xffffffff ∧ pn ≠ [] then (p-1) :: decLoop pn else (p-1) :: pn

/-- `operator<` and its kin, from the last word on: the first two words that differ decide. -/
def orderLoop (equal : Bool) (before : UInt32 → UInt32 → Bool) : List UInt32 → List UInt32 → Bool
  | a :: as, b :: bs => if before a b then true else if before b a then false else orderLoop equal before as bs
  | _, _ => equal

def equalLoop : List UInt32 → List UInt32 → Bool
  | a :: as, b :: bs => if a ≠ b then false else equalLoop as bs
  | _, _ => true

/-- A turn of `operator<<=`. -/
def shlTurn (a : List UInt32) (k : Nat) (shift : UInt32) (pn : List UInt32) (i : Nat) : List UInt32 :=
  let word := a[i]?.getD 0
  let pn := if i+k+1 < a.length ∧ shift ≠ 0 then pn.modify (i+k+1) (· ||| (word >>> (32-shift))) else pn
  if i+k < a.length then pn.modify (i+k) (· ||| (word <<< shift)) else pn

/-- A turn of `operator>>=`. -/
def shrTurn (a : List UInt32) (k : Nat) (shift : UInt32) (pn : List UInt32) (i : Nat) : List UInt32 :=
  let word := a[i]?.getD 0
  let pn := if k+1 ≤ i ∧ shift ≠ 0 then pn.modify (i-k-1) (· ||| (word <<< (32-shift))) else pn
  if k ≤ i then pn.modify (i-k) (· ||| (word >>> shift)) else pn

def shiftWords (turn : List UInt32 → Nat → UInt32 → List UInt32 → Nat → List UInt32) (a : List UInt32) (shift : UInt32) : List UInt32 :=
  (List.range a.length).foldl (turn a (shift/32).toNat (shift%32)) (List.replicate a.length 0)

theorem addLoop_length (carry : UInt64) {pn bs : List UInt32} (length : pn.length = bs.length) : (addLoop carry pn bs).length = pn.length := by
  induction pn generalizing carry bs with
  | nil => cases bs <;> rfl
  | cons p pn ih =>
    cases bs with
    | nil => simp at length
    | cons b bs => simpa [addLoop] using ih _ (by simpa using length)

@[simp] theorem incLoop_length (pn : List UInt32) : (incLoop pn).length = pn.length := by
  induction pn with
  | nil => rfl
  | cons p pn ih => unfold incLoop; split <;> simp [ih]

@[simp] theorem decLoop_length (pn : List UInt32) : (decLoop pn).length = pn.length := by
  induction pn with
  | nil => rfl
  | cons p pn ih => unfold decLoop; split <;> simp [ih]

@[simp] theorem shlTurn_length (a : List UInt32) (k : Nat) (shift : UInt32) (pn : List UInt32) (i : Nat) : (shlTurn a k shift pn i).length = pn.length := by
  unfold shlTurn
  split <;> split <;> simp

@[simp] theorem shrTurn_length (a : List UInt32) (k : Nat) (shift : UInt32) (pn : List UInt32) (i : Nat) : (shrTurn a k shift pn i).length = pn.length := by
  unfold shrTurn
  split <;> split <;> simp

theorem foldl_length {turn : List UInt32 → Nat → List UInt32} (keeps : ∀ pn i, (turn pn i).length = pn.length) (is : List Nat) (pn : List UInt32) :
    (is.foldl turn pn).length = pn.length := by
  induction is generalizing pn with
  | nil => rfl
  | cons i is ih => rw [List.foldl_cons,ih,keeps]

/-! ### Operators -/

/-- `operator=(uint64)` -/
def assign (BITS : Nat) (b : UInt64) : base_uint BITS where
  pn := ((List.replicate (BITS/32) 0).set 0 b.toUInt32).set 1 (b >>> 32).toUInt32
  width := by simp

/-- `operator++` -/
def inc (x : base_uint BITS) : base_uint BITS := ⟨incLoop x.pn,by simp [x.width]⟩
/-- `operator--` -/
def dec (x : base_uint BITS) : base_uint BITS := ⟨decLoop x.pn,by simp [x.width]⟩

/-- `operator-` -/
def neg (x : base_uint BITS) : base_uint BITS := inc ⟨x.pn.map (~~~ ·),by simp [x.width]⟩

/-- `operator+=` -/
def addAssign (x b : base_uint BITS) : base_uint BITS :=
  ⟨addLoop 0 x.pn b.pn,by rw [addLoop_length 0 (x.width.trans b.width.symm),x.width]⟩
/-- `operator-=` -/
def subAssign (x b : base_uint BITS) : base_uint BITS := x.addAssign b.neg

/-- `operator+=(uint64)` and `operator-=(uint64)` -/
def addAssign64 (x : base_uint BITS) (b64 : UInt64) : base_uint BITS := x.addAssign (assign BITS b64)
def subAssign64 (x : base_uint BITS) (b64 : UInt64) : base_uint BITS := x.addAssign (assign BITS b64).neg

/-- `operator<<=` and `operator>>=` -/
def shlAssign (x : base_uint BITS) (shift : UInt32) : base_uint BITS :=
  ⟨shiftWords shlTurn x.pn shift,by rw [shiftWords,foldl_length (shlTurn_length _ _ _),List.length_replicate,x.width]⟩
def shrAssign (x : base_uint BITS) (shift : UInt32) : base_uint BITS :=
  ⟨shiftWords shrTurn x.pn shift,by rw [shiftWords,foldl_length (shrTurn_length _ _ _),List.length_replicate,x.width]⟩

/-- `operator<`, `operator<=`, `operator>` and `operator>=` -/
def lt (a b : base_uint BITS) : Bool := orderLoop false (fun a b => decide (a < b)) a.pn.reverse b.pn.reverse
def le (a b : base_uint BITS) : Bool := orderLoop true (fun a b => decide (a < b)) a.pn.reverse b.pn.reverse
def gt (a b : base_uint BITS) : Bool := orderLoop false (fun a b => decide (a > b)) a.pn.reverse b.pn.reverse
def ge (a b : base_uint BITS) : Bool := orderLoop true (fun a b => decide (a > b)) a.pn.reverse b.pn.reverse

/-- `operator==` and `operator!=` -/
def eq (a b : base_uint BITS) : Bool := equalLoop a.pn b.pn
def ne (a b : base_uint BITS) : Bool := !a.eq b

/-- `operator==(uint64)` and `operator!=(uint64)` -/
def eq64 (a : base_uint BITS) (b : UInt64) : Bool :=
  if a.pn[0]?.getD 0 ≠ b.toUInt32 then false
  else if a.pn[1]?.getD 0 ≠ (b >>> 32).toUInt32 then false
  else (a.pn.drop 2).all (· == 0)
def ne64 (a : base_uint BITS) (b : UInt64) : Bool := !a.eq64 b

/-! ### Hexadecimal texts -/

/-- The words in memory. -/
def memory (pn : List UInt32) : List UInt8 := pn.flatMap fun word => leBytes 4 word.toNat

/-- The words that so many times four bytes make. -/
def wordsOf : Nat → List UInt8 → List UInt32
  | 0, _ => []
  | n+1, bytes => UInt32.ofNat (leNat (bytes.take 4)) :: wordsOf n (bytes.drop 4)

@[simp] theorem wordsOf_length (n : Nat) (bytes : List UInt8) : (wordsOf n bytes).length = n := by
  induction n generalizing bytes with
  | zero => rfl
  | succ n ih => rw [wordsOf,List.length_cons,ih]

def tolower (c : UInt8) : UInt8 := if 0x41 ≤ c ∧ c ≤ 0x5A then c+0x20 else c

/-- The bytes from `p1` to `pend`, all 0 before, that the digits fill from the last one on. -/
def fillBytes : Nat → Text → List UInt8
  | n+1, low :: high :: rest => (phexdigit low ||| phexdigit high <<< 4) :: fillBytes n rest
  | n+1, [low] => phexdigit low :: List.replicate n 0
  | n, _ => List.replicate n 0

def GetHex (x : base_uint BITS) : Text := (memory x.pn).reverse.flatMap hexOf

def SetHex (BITS : Nat) (psz : Text) : base_uint BITS :=
  let psz := psz.dropWhile isspace
  let psz := if psz.headD 0 = 0x30 ∧ tolower (psz.tail.headD 0) = 0x78 then psz.drop 2 else psz
  ⟨wordsOf (BITS/32) (fillBytes (BITS/32*4) (psz.takeWhile isHex).reverse),wordsOf_length _ _⟩

def toNat (x : base_uint BITS) : Nat := value x.pn

/-! ### Carries -/

/-- One word is added with the carry, of which at most 1 goes on. -/
theorem value_addLoop {carry : UInt64} (small : carry.toNat ≤ 1) {pn bs : List UInt32} (length : pn.length = bs.length) :
    value (addLoop carry pn bs) = (carry.toNat+value pn+value bs)%2^(32*pn.length) := by
  induction pn generalizing carry bs with
  | nil =>
    cases bs with
    | nil => simp [addLoop,Nat.mod_one]
    | cons b bs => simp at length
  | cons p pn ih =>
    cases bs with
    | nil => simp at length
    | cons b bs =>
      have low := p.toNat_lt
      have low' := b.toNat_lt
      have sum : (carry+p.toUInt64+b.toUInt64).toNat = carry.toNat+p.toNat+b.toNat := by
        rw [UInt64.toNat_add,UInt64.toNat_add,UInt32.toNat_toUInt64,UInt32.toNat_toUInt64]
        omega
      have kept : ((carry+p.toUInt64+b.toUInt64) &&& 0xffffffff).toUInt32.toNat = (carry.toNat+p.toNat+b.toNat)%2^32 := by
        rw [UInt64.toNat_toUInt32,UInt64.toNat_and,sum]
        show ((carry.toNat+p.toNat+b.toNat) &&& (2^32-1))%2^32 = _
        rw [Nat.and_two_pow_sub_one_eq_mod,Nat.mod_mod]
      have over' : ((carry+p.toUInt64+b.toUInt64) >>> 32).toNat = (carry.toNat+p.toNat+b.toNat)/2^32 := by
        rw [UInt64.toNat_shiftRight,sum,Nat.shiftRight_eq_div_pow]
        rfl
      have whole : carry.toNat+value (p :: pn)+value (b :: bs) = (carry.toNat+p.toNat+b.toNat)+2^32*(value pn+value bs) := by
        rw [value_cons,value_cons]
        ring
      rw [addLoop,value_cons,kept,ih (by rw [over']; omega) (by simpa using length),over',whole,word_power,mod_word,Nat.add_assoc (_/2^32)]

/-- The carry goes on while the words become 0. -/
theorem value_incLoop (pn : List UInt32) : value (incLoop pn) = (value pn+1)%2^(32*pn.length) := by
  induction pn with
  | nil => rfl
  | cons p pn ih =>
    have low := p.toNat_lt
    have high := value_lt pn
    have next : (p+1).toNat = (p.toNat+1)%2^32 := by rw [UInt32.toNat_add]; rfl
    have wraps : p+1 = 0 ↔ p.toNat = 2^32-1 := by rw [← UInt32.toNat_inj,next]; simp only [UInt32.toNat_zero]; omega
    have whole : value (p :: pn)+1 = (p.toNat+1)+2^32*value pn := by rw [value_cons]; ring
    rw [incLoop,whole,word_power,mod_word]
    split
    next carry =>
      have one : (p.toNat+1)/2^32 = 1 := by rw [wraps.mp carry.1]; rfl
      rw [value_cons,ih,next,one,Nat.add_comm 1]
    next done =>
      rw [value_cons,next]
      by_cases last : p+1 = 0
      · obtain rfl : pn = [] := by by_contra more; exact done ⟨last,more⟩
        simp [Nat.mod_one]
      · have none : (p.toNat+1)/2^32 = 0 := by rw [wraps] at last; omega
        rw [none,Nat.zero_add,Nat.mod_eq_of_lt high]

theorem value_decLoop (pn : List UInt32) : value (decLoop pn) = (value pn+(2^(32*pn.length)-1))%2^(32*pn.length) := by
  induction pn with
  | nil => rfl
  | cons p pn ih =>
    have low := p.toNat_lt
    have high := value_lt pn
    have positive := Nat.two_pow_pos (32*pn.length)
    have next : (p-1).toNat = (p.toNat+(2^32-1))%2^32 := by rw [UInt32.toNat_sub,Nat.add_comm]; rfl
    have wraps : p-1 = 0xffffffff ↔ p.toNat = 0 := by
      rw [← UInt32.toNat_inj,next]
      show _ = 2^32-1 ↔ _
      omega
    have whole : value (p :: pn)+(2^32*2^(32*pn.length)-1) = (p.toNat+(2^32-1))+2^32*(value pn+(2^(32*pn.length)-1)) := by rw [value_cons]; omega
    rw [decLoop,word_power,whole,mod_word]
    split
    next borrow =>
      have none : (p.toNat+(2^32-1))/2^32 = 0 := by rw [wraps.mp borrow.1]; rfl
      rw [value_cons,ih,next,none,Nat.zero_add]
    next done =>
      rw [value_cons,next]
      by_cases last : p-1 = 0xffffffff
      · obtain rfl : pn = [] := by by_contra more; exact done ⟨last,more⟩
        simp [Nat.mod_one]
      · have one : (p.toNat+(2^32-1))/2^32 = 1 := by rw [wraps] at last; omega
        have wrapped : 1+(value pn+(2^(32*pn.length)-1)) = value pn+2^(32*pn.length) := by omega
        rw [one,wrapped,Nat.add_mod_right,Nat.mod_eq_of_lt high]

/-! ### Order -/

theorem orderLoop_iff (equal : Bool) {as bs : List UInt32} (length : as.length = bs.length) :
    orderLoop equal (fun a b => decide (a < b)) as.reverse bs.reverse = true ↔ value as < value bs ∨ equal = true ∧ value as = value bs := by
  induction as using List.reverseRecOn generalizing bs with
  | nil =>
    obtain rfl := List.length_eq_zero_iff.mp length.symm
    simp [orderLoop]
  | append_singleton as a ih =>
    obtain rfl | ⟨bs,b,rfl⟩ := List.eq_nil_or_concat bs
    · simp at length
    · have shorter : as.length = bs.length := by simpa using length
      have same : value (as ++ [a]) = value (bs ++ [b]) ↔ a = b ∧ value as = value bs := by
        rw [value_inj_iff (by simpa using shorter),value_inj_iff shorter]
        constructor
        · intro same
          obtain ⟨low,top⟩ := List.append_inj same shorter
          exact ⟨List.singleton_inj.mp top,low⟩
        · rintro ⟨rfl,rfl⟩
          rfl
      rw [List.concat_eq_append,value_concat_lt_iff shorter,same,List.reverse_concat,List.reverse_concat,orderLoop]
      by_cases less : a < b
      · simp [less]
      · by_cases more : b < a
        · have apart : a ≠ b := fun same => less (same ▸ more)
          simp [less,more,apart]
        · have equal' : a = b := by
            rw [UInt32.lt_iff_toNat_lt] at less more
            exact UInt32.toNat_inj.mp (by omega)
          simp [equal',ih shorter]

theorem orderLoop_swap (equal : Bool) (as bs : List UInt32) :
    orderLoop equal (fun a b => decide (a > b)) as bs = orderLoop equal (fun a b => decide (a < b)) bs as := by
  induction as generalizing bs with
  | nil => cases bs <;> rfl
  | cons a as ih =>
    cases bs with
    | nil => rfl
    | cons b bs => simp only [orderLoop,ih]

theorem equalLoop_iff {as bs : List UInt32} (length : as.length = bs.length) : equalLoop as bs = true ↔ as = bs := by
  induction as generalizing bs with
  | nil =>
    obtain rfl := List.length_eq_zero_iff.mp length.symm
    simp [equalLoop]
  | cons a as ih =>
    cases bs with
    | nil => simp at length
    | cons b bs =>
      rw [equalLoop,List.cons.injEq]
      by_cases same : a = b
      · simp [same,ih (by simpa using length)]
      · simp [same]

/-! ### Shifts -/

theorem toNat_rest {s : UInt32} (small : s.toNat < 32) : (32-s).toNat = 32-s.toNat := by
  rw [UInt32.toNat_sub_of_le _ _ (by rw [UInt32.le_iff_toNat_le]; exact small.le)]
  rfl

/-- The bits that a turn of `operator<<=` sets are those of its word, higher by the shift:
    the lower part goes to one place, and the upper part to the next. -/
theorem bit_shlTurn {a pn : List UInt32} {k : Nat} {s : UInt32} (small : s.toNat < 32) {i n : Nat}
    (length : pn.length = a.length) (inside : n < 32*a.length) :
    bit (shlTurn a k s pn i) n =
      (bit pn n || (decide (32*k+s.toNat ≤ n) && decide ((n-(32*k+s.toNat))/32 = i) && bit a (n-(32*k+s.toNat)))) := by
  have zero : s = 0 ↔ s.toNat = 0 := UInt32.toNat_inj.symm
  have rest := toNat_rest small
  have digit : n%32 < 32 := Nat.mod_lt _ (by decide)
  have row : n/32 < pn.length := by omega
  have length' : (if i+k+1 < a.length ∧ s ≠ 0 then pn.modify (i+k+1) (· ||| (a[i]?.getD 0 >>> (32-s))) else pn).length = pn.length := by split <;> simp
  unfold shlTurn
  dsimp only
  rw [bit_modify_if _ _ _ (by rwa [length']),bit_modify_if _ _ _ row,Bool.or_assoc,bit_shiftLeft _ small digit]
  congr 1
  by_cases own : n/32 = i+k
  · by_cases reach : s.toNat ≤ n%32
    · have high : 32*k+s.toNat ≤ n := by omega
      have place : (n-(32*k+s.toNat))/32 = i := by omega
      have column : (n-(32*k+s.toNat))%32 = n%32-s.toNat := by omega
      have room : i+k < a.length := by omega
      simp [bit,own,reach,high,place,column,room]
    · have before : ¬(32*k+s.toNat ≤ n ∧ (n-(32*k+s.toNat))/32 = i) := by omega
      rw [← Bool.decide_and,decide_eq_false before]
      simp [own,reach]
  · by_cases next : n/32 = i+k+1 ∧ s ≠ 0
    · obtain ⟨place,some'⟩ := next
      have positive := mt zero.mpr some'
      rw [bit_shiftRight _ (by rw [rest]; omega),rest]
      by_cases reach : n%32 < s.toNat
      · have high : 32*k+s.toNat ≤ n := by omega
        have row : (n-(32*k+s.toNat))/32 = i := by omega
        have column : (n-(32*k+s.toNat))%32 = 32-s.toNat+n%32 := by omega
        have room : i+k+1 < a.length := by omega
        have short : 32-s.toNat+n%32 < 32 := by omega
        simp [bit,place,high,row,column,room,some',short]
      · have after : ¬(32*k+s.toNat ≤ n ∧ (n-(32*k+s.toNat))/32 = i) := by omega
        have long : ¬32-s.toNat+n%32 < 32 := by omega
        rw [← Bool.decide_and,decide_eq_false after]
        simp [place,long]
    · have other : ¬(32*k+s.toNat ≤ n ∧ (n-(32*k+s.toNat))/32 = i) := by
        rw [zero.ne] at next
        omega
      have none : ¬((i+k+1 < a.length ∧ s ≠ 0) ∧ n/32 = i+k+1) := fun both => next ⟨both.2,both.1.2⟩
      rw [← Bool.decide_and,decide_eq_false other,decide_eq_false none]
      simp [own]

/-- Those of `operator>>=` are lower by the shift. -/
theorem bit_shrTurn {a pn : List UInt32} {k : Nat} {s : UInt32} (small : s.toNat < 32) {i n : Nat}
    (length : pn.length = a.length) (inside : n < 32*a.length) :
    bit (shrTurn a k s pn i) n = (bit pn n || (decide ((n+(32*k+s.toNat))/32 = i) && bit a (n+(32*k+s.toNat)))) := by
  have zero : s = 0 ↔ s.toNat = 0 := UInt32.toNat_inj.symm
  have rest := toNat_rest small
  have digit : n%32 < 32 := Nat.mod_lt _ (by decide)
  have row : n/32 < pn.length := by omega
  have length' : (if k+1 ≤ i ∧ s ≠ 0 then pn.modify (i-k-1) (· ||| (a[i]?.getD 0 <<< (32-s))) else pn).length = pn.length := by split <;> simp
  unfold shrTurn
  dsimp only
  rw [bit_modify_if _ _ _ (by rwa [length']),bit_modify_if _ _ _ row,Bool.or_assoc,bit_shiftRight _ small]
  congr 1
  by_cases own : k ≤ i ∧ n/32 = i-k
  · obtain ⟨later,place⟩ := own
    have none : ¬((k+1 ≤ i ∧ s ≠ 0) ∧ n/32 = i-k-1) := by omega
    rw [decide_eq_false none]
    by_cases reach : s.toNat+n%32 < 32
    · have row : (n+(32*k+s.toNat))/32 = i := by omega
      have column : (n+(32*k+s.toNat))%32 = s.toNat+n%32 := by omega
      simp [bit,later,place,row,column,reach]
    · have after : ¬(n+(32*k+s.toNat))/32 = i := by omega
      simp [reach,after]
  · rw [decide_eq_false own]
    by_cases next : (k+1 ≤ i ∧ s ≠ 0) ∧ n/32 = i-k-1
    · obtain ⟨⟨later,some'⟩,place⟩ := next
      have positive := mt zero.mpr some'
      rw [bit_shiftLeft _ (by rw [rest]; omega) digit,rest]
      by_cases reach : 32-s.toNat ≤ n%32
      · have row : (n+(32*k+s.toNat))/32 = i := by omega
        have column : (n+(32*k+s.toNat))%32 = n%32-(32-s.toNat) := by omega
        simp [bit,later,some',place,row,column,reach]
      · have before : ¬(n+(32*k+s.toNat))/32 = i := by omega
        simp [reach,before]
    · have other : ¬(n+(32*k+s.toNat))/32 = i := by
        rw [zero.ne] at next
        omega
      rw [decide_eq_false next,decide_eq_false other]
      simp

theorem shift_parts (shift : UInt32) : (shift%32).toNat < 32 ∧ 32*(shift/32).toNat+(shift%32).toNat = shift.toNat := by
  have quotient : (shift/32).toNat = shift.toNat/32 := UInt32.toNat_div shift 32
  have rest : (shift%32).toNat = shift.toNat%32 := UInt32.toNat_mod shift 32
  omega

theorem value_shl (a : List UInt32) (shift : UInt32) : value (shiftWords shlTurn a shift) = value a*2^shift.toNat%2^(32*a.length) := by
  obtain ⟨small,parts⟩ := shift_parts shift
  have length : (shiftWords shlTurn a shift).length = a.length := by rw [shiftWords,foldl_length (shlTurn_length _ _ _),List.length_replicate]
  rw [← length]
  refine value_eq_of_bits (Nat.mod_lt _ (Nat.two_pow_pos _)) fun n inside => ?_
  rw [length] at inside ⊢
  rw [shiftWords,bit_foldl (shlTurn_length a _ _) (fun pn i n _ length inside => bit_shlTurn small length inside) (le_refl _) inside,
    parts,Nat.testBit_mod_two_pow,Nat.testBit_mul_two_pow,testBit_value,Bool.eq_iff_iff,List.any_eq_true]
  have row (high : shift.toNat ≤ n) : (n-shift.toNat)/32 < a.length := by omega
  simpa [inside] using fun high _ => row high

theorem value_shr (a : List UInt32) (shift : UInt32) : value (shiftWords shrTurn a shift) = value a/2^shift.toNat := by
  obtain ⟨small,parts⟩ := shift_parts shift
  have length : (shiftWords shrTurn a shift).length = a.length := by rw [shiftWords,foldl_length (shrTurn_length _ _ _),List.length_replicate]
  have low : value a/2^shift.toNat < 2^(32*(shiftWords shrTurn a shift).length) := by
    rw [length]
    exact (Nat.div_le_self _ _).trans_lt (value_lt a)
  refine value_eq_of_bits low fun n inside => ?_
  rw [length] at inside
  rw [shiftWords,bit_foldl (shrTurn_length a _ _) (fun pn i n _ length inside => bit_shrTurn small length inside) (le_refl _) inside,
    parts,Nat.testBit_div_two_pow,testBit_value,Bool.eq_iff_iff,List.any_eq_true]
  simpa using lt_of_bit

/-! ### Texts and small numbers -/

theorem wordsOf_memory (pn : List UInt32) : wordsOf pn.length (memory pn) = pn := by
  induction pn with
  | nil => rfl
  | cons word pn ih =>
    have first : (memory (word :: pn)).take 4 = leBytes 4 word.toNat := by
      rw [memory,List.flatMap_cons,List.take_append_of_le_length (by simp),List.take_of_length_le (by simp)]
    have rest : (memory (word :: pn)).drop 4 = memory pn := by
      rw [memory,List.flatMap_cons,List.drop_append_of_le_length (by simp),List.drop_of_length_le (by simp)]
      rfl
    rw [List.length_cons,wordsOf,first,rest,ih,leNat_leBytes word.toNat_lt,UInt32.ofNat_toNat]

theorem memory_length (pn : List UInt32) : (memory pn).length = pn.length*4 := by
  simp [memory,List.length_flatMap]

theorem fillBytes_hex (bytes : List UInt8) : fillBytes bytes.length (bytes.reverse.flatMap hexOf).reverse = bytes := by
  rw [List.reverse_flatMap,List.reverse_reverse]
  induction bytes with
  | nil => rfl
  | cons byte bytes ih =>
    obtain ⟨_,_,_,whole⟩ := hexOf_digits byte
    rw [List.flatMap_cons,List.length_cons]
    show fillBytes (bytes.length+1) (hexDigit (byte &&& 0x0F) :: hexDigit (byte >>> 4) :: bytes.flatMap (List.reverse ∘ hexOf)) = _
    rw [fillBytes,ih,UInt8.or_comm,whole]

/-- A digit is no `'x'`. -/
theorem tolower_digit {c : UInt8} (digit : isHex c = true) : tolower c ≠ 0x78 := by
  have all : ∀ b : Fin 256, isHex (UInt8.ofNat b) = true → tolower (UInt8.ofNat b) ≠ 0x78 := by decide +kernel
  have here := all ⟨c.toNat,c.toNat_lt⟩
  rw [UInt8.ofNat_toNat] at here
  exact here digit

theorem SetHex_GetHex (x : base_uint BITS) : SetHex BITS x.GetHex = x := by
  obtain ⟨pn,width⟩ := x
  have length : (memory pn).length = BITS/32*4 := by rw [memory_length,width]
  have second : tolower (((memory pn).reverse.flatMap hexOf).tail.headD 0) ≠ 0x78 := by
    cases rest : ((memory pn).reverse.flatMap hexOf).tail with
    | nil => decide
    | cons c digits => exact tolower_digit (isHex_hex (List.mem_of_mem_tail (rest ▸ List.mem_cons_self)))
  have filled : wordsOf (BITS/32) (fillBytes (BITS/32*4) ((memory pn).reverse.flatMap hexOf).reverse) = pn := by
    rw [← length,fillBytes_hex,← width,wordsOf_memory]
  unfold SetHex GetHex
  dsimp only
  simp only [dropWhile_hex,second,and_false,if_false,takeWhile_hex,filled]

theorem assign_pn (wide : 2 ≤ BITS/32) (b : UInt64) : (assign BITS b).pn = b.toUInt32 :: (b >>> 32).toUInt32 :: List.replicate (BITS/32-2) 0 := by
  obtain ⟨n,size⟩ := Nat.exists_eq_add_of_le' wide
  show ((List.replicate (BITS/32) 0).set 0 b.toUInt32).set 1 (b >>> 32).toUInt32 = _
  rw [size,List.replicate_succ,List.replicate_succ]
  rfl

/-- The two words of a `uint64`. -/
theorem halves (b : UInt64) : b.toUInt32.toNat = b.toNat%2^32 ∧ (b >>> 32).toUInt32.toNat = b.toNat/2^32 := by
  have low := b.toNat_lt
  have high : (b >>> 32).toNat = b.toNat/2^32 := by rw [UInt64.toNat_shiftRight,Nat.shiftRight_eq_div_pow]; rfl
  refine ⟨UInt64.toNat_toUInt32 b,?_⟩
  rw [UInt64.toNat_toUInt32,high]
  omega

theorem toNat_assign (wide : 2 ≤ BITS/32) (b : UInt64) : (assign BITS b).toNat = b.toNat := by
  obtain ⟨low,high⟩ := halves b
  rw [toNat,assign_pn wide,value_cons,value_cons,value_replicate_zero,low,high]
  omega

theorem eq64_iff (wide : 2 ≤ BITS/32) (a : base_uint BITS) (b : UInt64) : a.eq64 b = true ↔ a.toNat = b.toNat := by
  obtain ⟨low,high⟩ := halves b
  obtain ⟨pn,width⟩ := a
  match pn with
  | [] => simp at width; omega
  | [_] => simp at width; omega
  | first :: second :: rest =>
    have bound := first.toNat_lt
    have bound' := second.toNat_lt
    have bound'' := b.toNat_lt
    have zeros : rest.all (· == 0) = true ↔ value rest = 0 := by rw [value_eq_zero_iff,List.all_eq_true]; simp
    have same : first = b.toUInt32 ↔ first.toNat = b.toNat%2^32 := by rw [← UInt32.toNat_inj,low]
    have same' : second = (b >>> 32).toUInt32 ↔ second.toNat = b.toNat/2^32 := by rw [← UInt32.toNat_inj,high]
    unfold eq64 toNat
    simp only [List.getElem?_cons_zero,List.getElem?_cons_succ,Option.getD_some,List.drop_succ_cons,List.drop_zero,value_cons]
    split
    next apart =>
      rw [Ne,same] at apart
      simp only [Bool.false_eq_true,false_iff]
      omega
    next here =>
      rw [Ne,not_not,same] at here
      split
      next apart =>
        rw [Ne,same'] at apart
        simp only [Bool.false_eq_true,false_iff]
        omega
      next there =>
        rw [Ne,not_not,same'] at there
        rw [zeros]
        omega

/-! ### The operators as arithmetic -/

section
variable (aligned : 32 ∣ BITS)
include aligned

theorem bits (x : base_uint BITS) : 32*x.pn.length = BITS := by rw [x.width,Nat.mul_div_cancel' aligned]

theorem toNat_lt (x : base_uint BITS) : x.toNat < 2^BITS := by
  have low := value_lt x.pn
  rwa [x.bits aligned] at low

theorem toNat_addAssign (x y : base_uint BITS) : (x.addAssign y).toNat = (x.toNat+y.toNat)%2^BITS := by
  have sum := value_addLoop (show (0 : UInt64).toNat ≤ 1 by decide) (x.width.trans y.width.symm)
  rw [x.bits aligned] at sum
  simpa [toNat,addAssign] using sum

theorem toNat_inc (x : base_uint BITS) : x.inc.toNat = (x.toNat+1)%2^BITS := by
  have next := value_incLoop x.pn
  rwa [x.bits aligned] at next

theorem toNat_dec (x : base_uint BITS) : x.dec.toNat = (x.toNat+(2^BITS-1))%2^BITS := by
  have next := value_decLoop x.pn
  rwa [x.bits aligned] at next

theorem toNat_neg (x : base_uint BITS) : x.neg.toNat = (2^BITS-x.toNat)%2^BITS := by
  have low := x.toNat_lt aligned
  have whole := value_not x.pn
  rw [x.bits aligned] at whole
  rw [neg,toNat_inc aligned]
  congr 1
  show value (x.pn.map (~~~ ·))+1 = 2^BITS-value x.pn
  rw [toNat] at low
  omega

theorem toNat_subAssign (x y : base_uint BITS) : (x.subAssign y).toNat = (x.toNat+(2^BITS-y.toNat))%2^BITS := by
  rw [subAssign,toNat_addAssign aligned,toNat_neg aligned,Nat.add_mod_mod]

theorem toNat_shlAssign (x : base_uint BITS) (shift : UInt32) : (x.shlAssign shift).toNat = x.toNat*2^shift.toNat%2^BITS := by
  have moved := value_shl x.pn shift
  rwa [x.bits aligned] at moved

end

theorem toNat_shrAssign (x : base_uint BITS) (shift : UInt32) : (x.shrAssign shift).toNat = x.toNat/2^shift.toNat := value_shr x.pn shift

theorem order_eq (equal : Bool) (x y : base_uint BITS) : orderLoop equal (fun a b => decide (a < b)) x.pn.reverse y.pn.reverse =
    decide (x.toNat < y.toNat ∨ equal = true ∧ x.toNat = y.toNat) := by
  rw [Bool.eq_iff_iff,decide_eq_true_iff]
  exact orderLoop_iff equal (x.width.trans y.width.symm)

theorem lt_eq (x y : base_uint BITS) : x.lt y = decide (x.toNat < y.toNat) := by
  rw [lt,order_eq]
  simp

theorem le_eq (x y : base_uint BITS) : x.le y = decide (x.toNat ≤ y.toNat) := by
  rw [le,order_eq]
  simp [Nat.le_iff_lt_or_eq]

theorem gt_eq (x y : base_uint BITS) : x.gt y = decide (x.toNat > y.toNat) := by
  rw [gt,orderLoop_swap]
  exact lt_eq y x

theorem ge_eq (x y : base_uint BITS) : x.ge y = decide (x.toNat ≥ y.toNat) := by
  rw [ge,orderLoop_swap]
  exact le_eq y x

theorem eq_eq (x y : base_uint BITS) : x.eq y = decide (x.toNat = y.toNat) := by
  have length := x.width.trans y.width.symm
  rw [Bool.eq_iff_iff,decide_eq_true_iff,eq,equalLoop_iff length]
  exact (value_inj_iff length).symm

/-- The operators are those of the numbers modulo the power of two, and the text of a
    number reads back. -/
structure Arithmetic (x y : base_uint BITS) (shift : UInt32) (b : UInt64) : Prop where
  below : x.toNat < 2^BITS
  addAssign : (x.addAssign y).toNat = (x.toNat+y.toNat)%2^BITS
  subAssign : (x.subAssign y).toNat = (x.toNat+(2^BITS-y.toNat))%2^BITS
  neg : x.neg.toNat = (2^BITS-x.toNat)%2^BITS
  inc : x.inc.toNat = (x.toNat+1)%2^BITS
  dec : x.dec.toNat = (x.toNat+(2^BITS-1))%2^BITS
  shlAssign : (x.shlAssign shift).toNat = x.toNat*2^shift.toNat%2^BITS
  shrAssign : (x.shrAssign shift).toNat = x.toNat/2^shift.toNat
  lt : x.lt y = decide (x.toNat < y.toNat)
  le : x.le y = decide (x.toNat ≤ y.toNat)
  gt : x.gt y = decide (x.toNat > y.toNat)
  ge : x.ge y = decide (x.toNat ≥ y.toNat)
  eq : x.eq y = decide (x.toNat = y.toNat)
  ne : x.ne y = decide (x.toNat ≠ y.toNat)
  assign : (assign BITS b).toNat = b.toNat
  addAssign64 : (x.addAssign64 b).toNat = (x.toNat+b.toNat)%2^BITS
  subAssign64 : (x.subAssign64 b).toNat = (x.toNat+(2^BITS-b.toNat))%2^BITS
  eq64 : x.eq64 b = decide (x.toNat = b.toNat)
  ne64 : x.ne64 b = decide (x.toNat ≠ b.toNat)
  text : SetHex BITS x.GetHex = x

theorem arithmetic (aligned : 32 ∣ BITS) (wide : 64 ≤ BITS) (x y : base_uint BITS) (shift : UInt32) (b : UInt64) : Arithmetic x y shift b := by
  have two : 2 ≤ BITS/32 := by omega
  have same64 : x.eq64 b = decide (x.toNat = b.toNat) := by rw [Bool.eq_iff_iff,decide_eq_true_iff,eq64_iff two]
  exact {
    below := x.toNat_lt aligned
    addAssign := x.toNat_addAssign aligned y
    subAssign := x.toNat_subAssign aligned y
    neg := x.toNat_neg aligned
    inc := x.toNat_inc aligned
    dec := x.toNat_dec aligned
    shlAssign := x.toNat_shlAssign aligned shift
    shrAssign := x.toNat_shrAssign shift
    lt := lt_eq x y
    le := le_eq x y
    gt := gt_eq x y
    ge := ge_eq x y
    eq := eq_eq x y
    ne := by rw [base_uint.ne,eq_eq,decide_not]
    assign := toNat_assign two b
    addAssign64 := by rw [base_uint.addAssign64,toNat_addAssign aligned,toNat_assign two]
    subAssign64 := by rw [base_uint.subAssign64,toNat_addAssign aligned,toNat_neg aligned,toNat_assign two,Nat.add_mod_mod]
    eq64 := same64
    ne64 := by rw [base_uint.ne64,same64,decide_not]
    text := SetHex_GetHex x}

/-- The narrowest width, where 1 comes to the greatest number, shifted out of it. -/
theorem arithmetic_narrow : 32 ∣ 64 ∧ 64 ≤ 64 ∧ Arithmetic (assign 64 0xffffffffffffffff) (assign 64 1) 64 1 :=
  ⟨by decide,le_refl 64,arithmetic (by decide) (le_refl 64) _ _ 64 1⟩

example : ((assign 96 0xffffffffffffffff).addAssign64 1).GetHex = [0x30,0x30,0x30,0x30,0x30,0x30,0x30,0x31] ++ List.replicate 16 0x30 := by decide +kernel

end base_uint
end Tetra
