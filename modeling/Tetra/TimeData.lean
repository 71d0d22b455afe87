import Mathlib
import Tetra.AddrMan

/-!
The node's estimate of how far its clock is from that of its peers: the median of their
last offsets.
-/
namespace Tetra

/-- The last `nSize` values, and the same values in order. -/
structure CMedianFilter (T : Type) where
  vValues : List T
  vSorted : List T
  nSize : Nat

namespace CMedianFilter
variable {T : Type}

def new (size : Nat) (initial_value : T) : CMedianFilter T := ⟨[initial_value],[initial_value],size⟩

def input [LE T] [DecidableLE T] (filter : CMedianFilter T) (value : T) : CMedianFilter T :=
  let vValues := (if filter.vValues.length = filter.nSize then filter.vValues.tail else filter.vValues) ++ [value]
  {filter with vValues := vValues,vSorted := vValues.insertionSort (· ≤ ·)}

/-- None where `assert(size>0)` fails. -/
def median [Add T] [Div T] [OfNat T 2] (filter : CMedianFilter T) : Option T :=
  let size := filter.vSorted.length
  if size%2 = 1 then filter.vSorted[size/2]?
  else do
    let lower ← filter.vSorted[size/2-1]?
    let upper ← filter.vSorted[size/2]?
    some ((lower+upper)/2)

def size (filter : CMedianFilter T) : Nat := filter.vValues.length

end CMedianFilter

def abs64 (n : Int64) : Int64 := if n ≥ 0 then n else -n

/-- `vTimeOffsets`, `nTimeOffset`, `setKnown` and `fDone`. -/
structure TimeData where
  vTimeOffsets : CMedianFilter Int64 := .new 200 0
  nTimeOffset : Int64 := 0
  setKnown : List CNetAddr := []
  fDone : Bool := false
  strMiscWarning : String := ""

/-- A call of `AddTimeData`, with what `GetTime` returns in it. -/
structure TimeSample where
  ip : CNetAddr
  nTime : Int64
  now : Int64

def TimeSample.offset (c : TimeSample) : Int64 := c.nTime-c.now

namespace TimeData

/-- What is done with the median: it is taken over, or the offset is reset and the user
    warned, once, if no peer agrees with the local clock. -/
def adjust (s : TimeData) (nMedian : Int64) : TimeData :=
  if abs64 nMedian < 35*60 then {s with nTimeOffset := nMedian}
  else
    let s := {s with nTimeOffset := 0}
    let fMatch := s.vTimeOffsets.vSorted.any fun nOffset => nOffset ≠ 0 ∧ abs64 nOffset < 5*60
    if s.fDone = false ∧ fMatch = false then
      {s with
        fDone := true
        strMiscWarning := "Warning: Please check that your computer's date and time are correct! If your clock is wrong Tetra will not work properly."}
    else s

def AddTimeData (s : TimeData) (c : TimeSample) : TimeData :=
  if c.ip ∈ s.setKnown then s
  else
    let s := {s with setKnown := c.ip :: s.setKnown,vTimeOffsets := s.vTimeOffsets.input c.offset}
    if s.vTimeOffsets.size ≥ 5 ∧ s.vTimeOffsets.size%2 = 1 then
      match s.vTimeOffsets.median with
      | some nMedian => s.adjust nMedian
      | none => s
    else s

/-- After these calls, from a started node. -/
def run (calls : List TimeSample) : TimeData := calls.foldl AddTimeData {}

/-- The offsets taken in: of each address the first. -/
def samples (known : List CNetAddr) : List TimeSample → List Int64
  | [] => []
  | c :: calls => if c.ip ∈ known then samples known calls else c.offset :: samples (c.ip :: known) calls

end TimeData

/-- The last `n` entries of a list. -/
def lastN {α : Type*} (n : Nat) (list : List α) : List α := list.drop (list.length-n)

/-- A queue of `n` at most that drops its first entry when it is full has the last ones. -/
theorem lastN_concat {α : Type*} {n : Nat} (positive : 0 < n) (list : List α) (value : α) :
    (if (lastN n list).length = n then (lastN n list).tail else lastN n list) ++ [value] = lastN n (list ++ [value]) := by
  have length : (lastN n list).length = list.length-(list.length-n) := by rw [lastN,List.length_drop]
  have longer : lastN n (list ++ [value]) = (list ++ [value]).drop (list.length+1-n) := by rw [lastN,List.length_append,List.length_singleton]
  rw [longer]
  split_ifs with full
  · have next : list.length+1-n = list.length-n+1 := by omega
    rw [lastN,List.tail_drop,next,List.drop_append_of_le_length (by omega)]
  · have whole : list.length-n = 0 := by omega
    have room : list.length+1-n = 0 := by omega
    rw [lastN,whole,room,List.drop_zero,List.drop_zero]

namespace CMedianFilter

/-- The filter holds the last `nSize` of these values, also in order. -/
structure Holds {T : Type} [LE T] (filter : CMedianFilter T) (values : List T) : Prop where
  last : filter.vValues = lastN filter.nSize values
  perm : filter.vSorted.Perm filter.vValues
  sorted : filter.vSorted.Pairwise (· ≤ ·)

theorem Holds.new {T : Type} [LE T] (size : Nat) (positive : 0 < size) (initial_value : T) : Holds (new size initial_value) [initial_value] := by
  refine ⟨?_,List.Perm.refl _,List.pairwise_singleton _ _⟩
  have none : [initial_value].length-size = 0 := by rw [List.length_singleton]; omega
  change [initial_value] = lastN size [initial_value]
  rw [lastN,none,List.drop_zero]

theorem Holds.input {T : Type} [LE T] [DecidableLE T] [@Std.Total T (· ≤ ·)] [IsTrans T (· ≤ ·)] {filter : CMedianFilter T} {values : List T}
    (holds : Holds filter values) (positive : 0 < filter.nSize) (value : T) : Holds (filter.input value) (values ++ [value]) := by
  refine ⟨?_,List.perm_insertionSort _ _,List.pairwise_insertionSort _ _⟩
  change (if filter.vValues.length = filter.nSize then filter.vValues.tail else filter.vValues) ++ [value] = lastN filter.nSize (values ++ [value])
  rw [holds.last]
  exact lastN_concat positive values value

/-- In a list in order, an entry is the least value just where the copies of that value reach. -/
theorem getElem?_least {T : Type} [LE T] [DecidableEq T] (antisymm : ∀ {a b : T}, a ≤ b → b ≤ a → a = b) {list : List T} {least : T}
    (sorted : list.Pairwise (· ≤ ·)) (below : ∀ x ∈ list, least ≤ x) (i : Nat) : list[i]? = some least ↔ i < list.count least := by
  induction list generalizing i with
  | nil => simp
  | cons x list ih =>
    obtain ⟨first,rest⟩ := List.pairwise_cons.mp sorted
    have later := ih rest fun y member => below y (List.mem_cons_of_mem _ member)
    by_cases same : x = least
    · obtain rfl := same
      rw [List.count_cons_self]
      cases i with
      | zero => simp
      | succ i => rw [List.getElem?_cons_succ,later]; omega
    · have above : ∀ y ∈ x :: list, y ≠ least := by
        intro y member equal
        rcases List.mem_cons.mp member with rfl | member
        · exact same equal
        · exact same (antisymm (equal ▸ first y member) (below x (by simp)))
      have none : (x :: list).count least = 0 := List.count_eq_zero.mpr fun member => above least member rfl
      rw [none]
      refine ⟨fun found => absurd rfl (above least (List.mem_of_getElem? found)),fun less => by omega⟩

end CMedianFilter

instance int64Total : @Std.Total Int64 (· ≤ ·) := ⟨Int64.le_total⟩
instance int64Trans : IsTrans Int64 (· ≤ ·) := ⟨fun _ _ _ => Int64.le_trans⟩

/-- The absolute value of the least integer is that integer. -/
theorem abs64_less (n limit : Int64) (positive : 0 < limit) : abs64 n < limit ↔ n = Int64.minValue ∨ (n.toInt.natAbs : Int) < limit.toInt := by
  have least := Int64.le_toInt n
  have above := Int64.toInt_lt n
  rw [Int64.lt_iff_toInt_lt] at positive ⊢
  change 0 < limit.toInt at positive
  have lowest : n = Int64.minValue ↔ n.toInt = -2^63 := by rw [← Int64.toInt_inj]; rfl
  rw [lowest,abs64]
  split_ifs with sign
  · rw [ge_iff_le,Int64.le_iff_toInt_le] at sign
    change 0 ≤ n.toInt at sign
    omega
  · rw [ge_iff_le,Int64.le_iff_toInt_le] at sign
    change ¬ 0 ≤ n.toInt at sign
    rw [Int64.toInt_neg]
    by_cases low : n.toInt = -2^63
    · rw [low]
      refine ⟨fun _ => .inl rfl,fun _ => ?_⟩
      have wrapped : Int.bmod (-(-2^63)) (2^64) = -2^63 := by decide
      rw [wrapped]
      omega
    · rw [Int.bmod_eq_of_le (by omega) (by omega)]
      omega

namespace TimeData

theorem samples_append (known : List CNetAddr) (calls : List TimeSample) (c : TimeSample) :
    samples known (calls ++ [c]) = samples known calls ++ if c.ip ∈ known ∨ c.ip ∈ calls.map TimeSample.ip then [] else [c.offset] := by
  induction calls generalizing known with
  | nil => simp [samples]
  | cons first calls ih =>
    rw [List.cons_append,samples,samples,ih,ih]
    by_cases heard : first.ip ∈ known
    · rw [if_pos heard,if_pos heard]
      have same : (c.ip ∈ known ∨ c.ip ∈ calls.map TimeSample.ip) ↔ (c.ip ∈ known ∨ c.ip ∈ (first :: calls).map TimeSample.ip) := by
        rw [List.map_cons,List.mem_cons]
        constructor
        · exact Or.imp_right .inr
        · rintro (there | equal | there)
          · exact .inl there
          · exact .inl (equal ▸ heard)
          · exact .inr there
      simp only [same]
    · rw [if_neg heard,if_neg heard,List.cons_append]
      have same : (c.ip ∈ first.ip :: known ∨ c.ip ∈ calls.map TimeSample.ip) ↔ (c.ip ∈ known ∨ c.ip ∈ (first :: calls).map TimeSample.ip) := by
        rw [List.map_cons,List.mem_cons,List.mem_cons]
        tauto
      simp only [same]

/-- The window after these calls, with the initial zero while it is in it. -/
def window (calls : List TimeSample) : List Int64 := lastN 200 (0 :: samples [] calls)

theorem run_append (calls : List TimeSample) (c : TimeSample) : run (calls ++ [c]) = (run calls).AddTimeData c := by simp [run]

theorem adjust_filter (s : TimeData) (nMedian : Int64) :
    (s.adjust nMedian).vTimeOffsets = s.vTimeOffsets ∧ (s.adjust nMedian).setKnown = s.setKnown ∧
      (s.adjust nMedian).nTimeOffset = if abs64 nMedian < 35*60 then nMedian else 0 := by
  rw [adjust]
  split_ifs
  · exact ⟨rfl,rfl,rfl⟩
  · dsimp only
    split_ifs <;> exact ⟨rfl,rfl,rfl⟩

/-- What a call does to the filter and to the addresses heard of. -/
theorem AddTimeData_filter (s : TimeData) (c : TimeSample) :
    (s.AddTimeData c).vTimeOffsets = (if c.ip ∈ s.setKnown then s.vTimeOffsets else s.vTimeOffsets.input c.offset) ∧
    (s.AddTimeData c).setKnown = if c.ip ∈ s.setKnown then s.setKnown else c.ip :: s.setKnown := by
  rw [AddTimeData]
  split_ifs with known
  · exact ⟨rfl,rfl⟩
  · dsimp only
    split_ifs
    · split
      · exact ⟨(adjust_filter _ _).1,(adjust_filter _ _).2.1⟩
      · exact ⟨rfl,rfl⟩
    · exact ⟨rfl,rfl⟩

/-- The filter and the addresses after a run. -/
structure Filled (s : TimeData) (calls : List TimeSample) : Prop where
  size : s.vTimeOffsets.nSize = 200
  known : ∀ ip, ip ∈ s.setKnown ↔ ip ∈ calls.map TimeSample.ip
  holds : s.vTimeOffsets.Holds (0 :: samples [] calls)

theorem run_filled (calls : List TimeSample) : Filled (run calls) calls := by
  induction calls using List.reverseRecOn with
  | nil => exact ⟨rfl,fun ip => Iff.rfl,CMedianFilter.Holds.new 200 (by decide) 0⟩
  | append_singleton calls c ih =>
    obtain ⟨filter,known⟩ := AddTimeData_filter (run calls) c
    have heard : c.ip ∈ (run calls).setKnown ↔ c.ip ∈ [] ∨ c.ip ∈ calls.map TimeSample.ip := by simp [ih.known]
    rw [run_append]
    by_cases again : c.ip ∈ (run calls).setKnown
    · rw [if_pos again] at filter known
      refine ⟨by rw [filter,ih.size],fun ip => ?_,?_⟩
      · rw [known,ih.known,List.map_append,List.mem_append]
        refine ⟨.inl,fun there => there.elim id fun last => ?_⟩
        rw [List.mem_singleton.mp last]
        exact (ih.known _).mp again
      · rw [filter,samples_append,if_pos (heard.mp again),List.append_nil]
        exact ih.holds
    · rw [if_neg again] at filter known
      refine ⟨by rw [filter]; exact ih.size,fun ip => ?_,?_⟩
      · rw [known,List.mem_cons,ih.known,List.map_append,List.mem_append,or_comm]
        simp
      · rw [filter,samples_append,if_neg (mt heard.mpr again)]
        exact ih.holds.input (by rw [ih.size]; decide) _

/-- A median is taken of an odd number of samples, five or more. -/
def Taken (window : List Int64) : Prop := 5 ≤ window.length ∧ window.length%2 = 1

/-- Fewer than half of the samples are the least integer where a median is taken. -/
def Uncrowded (window : List Int64) : Prop := Taken window → 2*window.count Int64.minValue < window.length

theorem median_least {filter : CMedianFilter Int64} {values : List Int64} (holds : filter.Holds values) (odd : filter.size%2 = 1) :
    ∃ nMedian, filter.median = some nMedian ∧ (nMedian = Int64.minValue ↔ ¬ 2*filter.vValues.count Int64.minValue < filter.vValues.length) := by
  have length : filter.vSorted.length = filter.vValues.length := holds.perm.length_eq
  change filter.vValues.length%2 = 1 at odd
  have bound : filter.vSorted.length/2 < filter.vSorted.length := by omega
  have middle := CMedianFilter.getElem?_least Int64.le_antisymm holds.sorted (fun x _ => Int64.minValue_le x) (filter.vSorted.length/2)
  rw [holds.perm.count_eq,List.getElem?_eq_getElem bound,Option.some.injEq] at middle
  refine ⟨filter.vSorted[filter.vSorted.length/2],?_,?_⟩
  · rw [CMedianFilter.median]
    exact (if_pos (by omega)).trans (List.getElem?_eq_getElem bound)
  · rw [middle]
    omega

/-- The offset after a call is small or, where a median is taken of a crowded window, not. -/
theorem AddTimeData_offset (calls : List TimeSample) (c : TimeSample) (small : (run calls).nTimeOffset.toInt.natAbs < 35*60)
    (uncrowded : Uncrowded (window calls)) :
    (run (calls ++ [c])).nTimeOffset.toInt.natAbs < 35*60 ↔ Uncrowded (window (calls ++ [c])) := by
  have filled := run_filled calls
  have heard : c.ip ∈ (run calls).setKnown ↔ c.ip ∈ [] ∨ c.ip ∈ calls.map TimeSample.ip := by simp [filled.known]
  by_cases again : c.ip ∈ (run calls).setKnown
  · have same : window (calls ++ [c]) = window calls := by rw [window,samples_append,if_pos (heard.mp again),List.append_nil,window]
    rw [same,run_append,AddTimeData,if_pos again]
    exact ⟨fun _ => uncrowded,fun _ => small⟩
  · have holds : ((run calls).vTimeOffsets.input c.offset).Holds (0 :: samples [] (calls ++ [c])) := by
      rw [samples_append,if_neg (mt heard.mpr again)]
      exact filled.holds.input (by rw [filled.size]; decide) _
    have values : ((run calls).vTimeOffsets.input c.offset).vValues = window (calls ++ [c]) := by
      have last := holds.last
      rwa [show ((run calls).vTimeOffsets.input c.offset).nSize = 200 from filled.size] at last
    have taken : Taken (window (calls ++ [c])) ↔ ((run calls).vTimeOffsets.input c.offset).size ≥ 5 ∧
        ((run calls).vTimeOffsets.input c.offset).size%2 = 1 := by rw [Taken,← values]; exact Iff.rfl
    rw [run_append,AddTimeData,if_neg again]
    by_cases odd : ((run calls).vTimeOffsets.input c.offset).size ≥ 5 ∧ ((run calls).vTimeOffsets.input c.offset).size%2 = 1
    · obtain ⟨nMedian,median,least⟩ := median_least holds odd.2
      simp only [if_pos odd,median]
      have here := taken.mpr odd
      rw [← values] at here
      rw [(adjust_filter _ _).2.2,Uncrowded,← values,forall_prop_of_true here]
      by_cases lowest : nMedian = Int64.minValue
      · rw [if_pos ((abs64_less nMedian _ (by decide)).mpr (.inl lowest)),lowest]
        exact ⟨fun within => absurd within (by decide),fun few => absurd few (least.mp lowest)⟩
      · refine ⟨fun _ => not_not.mp (mt least.mpr lowest),fun _ => ?_⟩
        split_ifs with within
        · exact Int.ofNat_lt.mp (((abs64_less nMedian _ (by decide)).mp within).resolve_left lowest)
        · decide
    · simp only [if_neg odd]
      exact ⟨fun _ odd' => absurd (taken.mp odd') odd,fun _ => small⟩

/-- At every moment the filter's list is the last samples in order, and the offset is less than
    35 minutes, just where never half of the samples a median is taken of are the least integer. -/
theorem AddTimeData_bounded (calls : List TimeSample) :
    (∀ done, done <+: calls → (run done).vTimeOffsets.vSorted.Perm (window done) ∧
      (run done).vTimeOffsets.vSorted.Pairwise (· ≤ ·) ∧ (run done).nTimeOffset.toInt.natAbs < 35*60) ↔
    ∀ done, done <+: calls → Uncrowded (window done) := by
  have sorted (done : List TimeSample) : (run done).vTimeOffsets.vSorted.Perm (window done) ∧ (run done).vTimeOffsets.vSorted.Pairwise (· ≤ ·) := by
    obtain ⟨size,_,holds⟩ := run_filled done
    have perm := holds.perm
    rw [holds.last,size] at perm
    exact ⟨perm,holds.sorted⟩
  suffices same : (∀ done, done <+: calls → (run done).nTimeOffset.toInt.natAbs < 35*60) ↔ ∀ done, done <+: calls → Uncrowded (window done) from
    ⟨fun right => same.mp fun done before => (right done before).2.2,
      fun uncrowded done before => ⟨(sorted done).1,(sorted done).2,same.mpr uncrowded done before⟩⟩
  induction calls using List.reverseRecOn with
  | nil =>
    have first : Uncrowded (window []) := fun taken => absurd taken.1 (by decide)
    constructor
    · intro _ done before
      rwa [List.prefix_nil.mp before]
    · intro _ done before
      rw [List.prefix_nil.mp before]
      decide
  | append_singleton calls c ih =>
    simp only [List.prefix_concat_iff,forall_eq_or_imp]
    constructor
    · rintro ⟨last,earlier⟩
      have uncrowded := ih.mp earlier
      exact ⟨(AddTimeData_offset calls c (earlier calls (List.prefix_refl _)) (uncrowded calls (List.prefix_refl _))).mp last,uncrowded⟩
    · rintro ⟨last,earlier⟩
      have small := ih.mpr earlier
      exact ⟨(AddTimeData_offset calls c (small calls (List.prefix_refl _)) (earlier calls (List.prefix_refl _))).mpr last,small⟩

/-- Four peers whose offset is the least integer make it the node's. -/
theorem least_offset :
    ¬ (run ((List.range 4).map fun ip => ⟨ip,Int64.minValue+1600000000,1600000000⟩)).nTimeOffset.toInt.natAbs < 35*60 := by
  decide +kernel

end TimeData
end Tetra
