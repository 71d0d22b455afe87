import Mathlib
import Tetra.Endorsements

/-!
The byte that says how much an endorsement is worth, as `EndorsementSystem` writes it
and `ProcessEndorse` reads it.
-/
namespace Tetra

def MAX_RATE : Int := 1000000

/-! ### Conversions between integer types -/

theorem toInt_toInt64 (x : UInt64) : x.toInt64.toInt = (x.toNat : Int).bmod (2^64) := BitVec.toInt_eq_toNat_bmod x.toBitVec

theorem toNat_toUInt64 (x : Int64) : (x.toUInt64.toNat : Int) = x.toInt%2^64 := by
  have same : x.toInt = (x.toUInt64.toNat : Int).bmod (2^64) := BitVec.toInt_eq_toNat_bmod x.toBitVec
  have low := x.toUInt64.toNat_lt
  have whole := @Int.bmod_emod (x.toUInt64.toNat : Int) (2^64)
  rw [← same] at whole
  omega

/-- The least integer is its own absolute value, and no byte tells the difference. -/
theorem abs_toNat_emod (x : Int32) : (x.abs.toInt64.toUInt64.toNat : Int)%256 = |x.toInt|%256 := by
  have value : x.abs.toInt = if x.toBitVec = BitVec.intMin 32 then (BitVec.intMin 32).toInt else x.toInt.natAbs := BitVec.toInt_abs_eq_natAbs
  rw [toNat_toUInt64,Int32.toInt_toInt64,value]
  split
  next least =>
    have lowest : x.toInt = (BitVec.intMin 32).toInt := congrArg BitVec.toInt least
    rw [lowest]
    decide
  · rw [Int.natCast_natAbs]
    exact Int.emod_emod_of_dvd _ (by norm_num)

namespace srges

/-! ### What is written -/

/-- The `int` that `k-toplist.size()/2` becomes for `abs`. -/
def apart (size : UInt64) (k : Int32) : Int32 := (k.toInt64.toUInt64-size/2).toInt64.toInt32

/-- `(int) 100/toplist.size() + (int)abs(k-toplist.size()/2)` -/
def worth (size : UInt64) (k : Int32) : UInt64 := 100/size+(apart size k).abs.toInt64.toUInt64

def endorseValue (pr : PeerRate) (size : UInt64) (k : Int32) (CorruptedAction : Bool) : UInt8 :=
  let value : UInt8 :=
    if pr.rate = MAX_RATE then 0
    else if !CorruptedAction then (worth size k).toUInt8
    else (worth size k*(-1)).toUInt8
  value+101

/-- The loop of `EndorsementSystem`. Its `continue` goes past nothing that counts `k` up. -/
def endorseLoop (target : CPubKey) (CorruptedAction : Bool) (size : UInt64) (k : Int32) : tlist → Option UInt8
  | [] => none
  | (peer,pr) :: rest =>
    if peer ≠ target then endorseLoop target CorruptedAction size k rest else some (endorseValue pr size k CorruptedAction)

/-- The value of an endorsement of a peer of the list. -/
def writtenValue (list : tlist) (target : CPubKey) (CorruptedAction : Bool) : Option UInt8 :=
  endorseLoop target CorruptedAction (UInt64.ofNat list.length) 1 list

/-! ### What is read -/

/-- `((int)value)-101` -/
def readWorth (value : UInt8) : Int := (value.toNat : Int)-101

/-- What `ProcessEndorse` multiplies the source's share with. -/
def contribution (value : UInt8) : Int := (readWorth value).tdiv 100

/-- How far the first place is from the middle, as an `int`. -/
def firstApart (n : Nat) : Int := |(1-(n/2 : Nat) : Int).bmod (2^32)|

/-- What a target at some place, counted from one, should be worth. -/
def worthAt (n k : Nat) : Int := (100/n : Nat)+|(k : Int)-(n/2 : Nat)|

/-- What is read has the sign and the size that was meant. -/
def Preserves (CorruptedAction : Bool) (m : Int) (value : UInt8) : Prop :=
  if CorruptedAction then contribution value < 0 ∧ readWorth value = -m else 0 < contribution value ∧ readWorth value = m

theorem apart_toInt (size : UInt64) : (apart size 1).toInt = (1-(size.toNat/2 : Nat) : Int).bmod (2^32) := by
  have half : (size/2).toNat = size.toNat/2 := UInt64.toNat_div ..
  have first : ((1 : Int32).toInt64.toUInt64-size/2).toInt64 = 1-(size/2).toInt64 := UInt64.toInt64_sub ..
  rw [apart,Int64.toInt_toInt32,first,Int64.toInt_sub,toInt_toInt64,half,show (1 : Int64).toInt = 1 by rfl,Int.sub_bmod_bmod,
    Int.bmod_bmod_of_dvd (by norm_num)]

theorem worth_emod (size : UInt64) : ((worth size 1).toNat : Int)%256 = ((100/size.toNat : Nat)+firstApart size.toNat)%256 := by
  have distance := abs_toNat_emod (apart size 1)
  rw [apart_toInt] at distance
  have share : (100/size).toNat = 100/size.toNat := UInt64.toNat_div ..
  have sum : (worth size 1).toNat = (100/size.toNat+(apart size 1).abs.toInt64.toUInt64.toNat)%2^64 := by
    rw [worth,UInt64.toNat_add,share]
  rw [firstApart,Int.add_emod,← distance]
  omega

/-- The byte, for a rate that is not the highest. -/
theorem endorseValue_toNat {pr : PeerRate} (below : pr.rate < MAX_RATE) (size : UInt64) (CorruptedAction : Bool) :
    ((endorseValue pr size 1 CorruptedAction).toNat : Int) =
      (101+(if CorruptedAction then -1 else 1)*((100/size.toNat : Nat)+firstApart size.toNat))%256 := by
  have value := worth_emod size
  have offset : (101 : UInt8).toNat = 101 := rfl
  generalize ((100/size.toNat : Nat) : Int)+firstApart size.toNat = m at value ⊢
  rw [endorseValue,if_neg (ne_of_lt below)]
  cases CorruptedAction with
  | false =>
    rw [if_pos (by rfl),if_neg Bool.false_ne_true,UInt8.toNat_add,UInt64.toNat_toUInt8,offset]
    omega
  | true =>
    have minus : (worth size 1*(-1)).toNat = (2^64-(worth size 1).toNat)%2^64 := by
      rw [mul_neg_one]
      exact UInt64.toNat_neg ..
    have low := (worth size 1).toNat_lt
    rw [if_neg (by simp),if_pos rfl,UInt8.toNat_add,UInt64.toNat_toUInt8,offset,minus]
    omega

/-! ### The round trip -/

/-- The division cuts off towards zero: less than a hundred counts for nothing. -/
theorem contribution_signs (value : UInt8) :
    (0 < contribution value ↔ 100 ≤ readWorth value) ∧ (contribution value < 0 ↔ readWorth value ≤ -100) := by
  rw [contribution,Int.tdiv_eq_ediv,show Int.sign 100 = 1 by rfl]
  constructor <;> split <;> omega

theorem preserves_iff {CorruptedAction : Bool} {m first distance : Int} {value : UInt8}
    (written : (value.toNat : Int) = (101+(if CorruptedAction then -1 else 1)*(m+first))%256) :
    Preserves CorruptedAction (m+distance) value ↔
      100 ≤ m+distance ∧ m+distance ≤ (if CorruptedAction then 101 else 154) ∧ (first-distance)%256 = 0 := by
  obtain ⟨up,down⟩ := contribution_signs value
  have low := value.toNat_lt
  unfold Preserves
  rw [up,down,readWorth]
  cases CorruptedAction with
  | false =>
    simp only [Bool.false_eq_true,if_false] at written ⊢
    omega
  | true =>
    simp only [if_true] at written ⊢
    omega

theorem endorseLoop_found {target : CPubKey} {before after : tlist} (earlier : ∀ record ∈ before, record.1 ≠ target) (pr : PeerRate)
    (CorruptedAction : Bool) (size : UInt64) (k : Int32) :
    endorseLoop target CorruptedAction size k (before ++ (target,pr) :: after) = some (endorseValue pr size k CorruptedAction) := by
  induction before with
  | nil => rw [List.nil_append,endorseLoop,if_neg (not_not_intro rfl)]
  | cons record rest ih =>
    rw [List.cons_append,endorseLoop,if_pos (earlier record (List.mem_cons_self ..))]
    exact ih fun record member => earlier record (List.mem_cons_of_mem _ member)

/-- Sign and size come through just when the place is as far from the middle as the first
    place, up to multiples of 256, and this and the share make a hundred or a little more. -/
theorem endorsement_sign_iff {s : srges} {target : CPubKey} {place : Nat} {pr : PeerRate} (short : s.toplist.length < 2^64)
    (found : s.Find target = some (place,pr)) (below : pr.rate < MAX_RATE) (CorruptedAction : Bool) :
    (∃ value, writtenValue s.toplist target CorruptedAction = some value ∧
      Preserves CorruptedAction (worthAt s.toplist.length (place+1)) value) ↔
    100 ≤ worthAt s.toplist.length (place+1) ∧ worthAt s.toplist.length (place+1) ≤ (if CorruptedAction then 101 else 154) ∧
      (firstApart s.toplist.length-|((place+1 : Nat) : Int)-(s.toplist.length/2 : Nat)|)%256 = 0 := by
  obtain ⟨before,after,listed,-,earlier⟩ := Find_eq_some found
  have size : (UInt64.ofNat s.toplist.length).toNat = s.toplist.length := by
    rw [UInt64.toNat_ofNat',Nat.mod_eq_of_lt short]
  have writes : writtenValue s.toplist target CorruptedAction =
      some (endorseValue pr (UInt64.ofNat s.toplist.length) 1 CorruptedAction) := by
    unfold writtenValue
    generalize UInt64.ofNat s.toplist.length = n
    rw [listed]
    exact endorseLoop_found earlier pr CorruptedAction n 1
  have value := endorseValue_toNat below (UInt64.ofNat s.toplist.length) CorruptedAction
  rw [size] at value
  rw [worthAt,← preserves_iff value]
  constructor
  · rintro ⟨value,written,preserves⟩
    obtain rfl := Option.some.inj (writes.symm.trans written)
    exact preserves
  · exact fun preserves => ⟨_,writes,preserves⟩

private def newcomer : PeerRate := ⟨0,0,0,0,5,0⟩

/-- Of two peers the first is worth 50, which is read as nothing. -/
theorem endorsement_sign_lost :
    writtenValue [([2],newcomer),([3],newcomer)] [2] false = some 151 ∧ contribution 151 = 0 ∧
      ¬ ∃ value, writtenValue [([2],newcomer),([3],newcomer)] [2] false = some value ∧ Preserves false (worthAt 2 1) value := by
  have written : writtenValue [([2],newcomer),([3],newcomer)] [2] false = some 151 := by decide +kernel
  refine ⟨written,by decide,?_⟩
  rintro ⟨value,writes,up,-⟩
  obtain rfl := Option.some.inj (written.symm.trans writes)
  exact absurd up (by decide)

theorem endorsement_sign_alone : ∃ value, writtenValue [([2],newcomer)] [2] true = some value ∧ Preserves true (worthAt 1 1) value :=
  (@endorsement_sign_iff {toplist := [([2],newcomer)]} [2] 0 newcomer (by decide) (by decide) (by decide) true).mpr (by decide)

/-! ### The whole call -/

/-- `EndorsementSystem`, with what `value` held. -/
def EndorsementCall (c : Circumstances) (s : srges) (target : CPubKey) (value : UInt8) (CorruptedAction : Bool) : (Bool × UInt8) × srges :=
  match s.dbReadEndorse c "endorse" with
  | none => ((false,0xFF),s)
  | some (left,last) =>
    if left ≤ 0 ∨ last = target then ((false,0xFF),s) else
    let (written,s) := s.dbWriteEndorse c "endorse" (left-1,last)
    if written = false then ((false,value),s) else
    match writtenValue s.toplist target CorruptedAction with
    | some value => ((true,value),s)
    | none => ((false,value),s)

theorem endorseLoop_absent {target : CPubKey} {list : tlist} (absent : ∀ record ∈ list, record.1 ≠ target) (CorruptedAction : Bool)
    (size : UInt64) (k : Int32) : endorseLoop target CorruptedAction size k list = none := by
  induction list with
  | nil => rfl
  | cons record rest ih =>
    rw [endorseLoop,if_pos (absent record (List.mem_cons_self ..))]
    exact ih fun record member => absent record (List.mem_cons_of_mem _ member)

theorem writtenValue_isSome (s : srges) (target : CPubKey) (CorruptedAction : Bool) :
    (writtenValue s.toplist target CorruptedAction).isSome = (s.Find target).isSome := by
  unfold writtenValue
  generalize UInt64.ofNat s.toplist.length = size
  cases found : s.Find target with
  | none =>
    rw [endorseLoop_absent (Find_eq_none found)]
    rfl
  | some entry =>
    obtain ⟨place,pr⟩ := entry
    obtain ⟨before,after,listed,-,earlier⟩ := Find_eq_some found
    rw [listed,endorseLoop_found earlier]
    rfl

/-- The result and the state are those of `EndorsementSystem` without the value. -/
theorem EndorsementCall_agrees (rules : SrgesRules) (c : Circumstances) (s : srges) (target : CPubKey) (value : UInt8) (CorruptedAction : Bool) :
    (s.EndorsementCall c target value CorruptedAction).1.1 = (s.EndorsementSystem rules c target CorruptedAction).1.1 ∧
      (s.EndorsementCall c target value CorruptedAction).2 = (s.EndorsementSystem rules c target CorruptedAction).2 := by
  unfold EndorsementCall EndorsementSystem
  cases s.dbReadEndorse c "endorse" with
  | none => exact ⟨rfl,rfl⟩
  | some quota =>
    obtain ⟨left,last⟩ := quota
    dsimp only
    by_cases refused : left ≤ 0 ∨ last = target
    · rw [if_pos refused,if_pos refused]
      exact ⟨rfl,rfl⟩
    rw [if_neg refused,if_neg refused]
    cases (s.dbWriteEndorse c "endorse" (left-1,last)).1 with
    | false => exact ⟨rfl,rfl⟩
    | true =>
      rw [if_neg (by decide),if_neg (by decide),← writtenValue_isSome _ target CorruptedAction]
      cases writtenValue (s.dbWriteEndorse c "endorse" (left-1,last)).2.toplist target CorruptedAction with
      | none => exact ⟨rfl,rfl⟩
      | some value => exact ⟨rfl,rfl⟩

end srges
end Tetra
