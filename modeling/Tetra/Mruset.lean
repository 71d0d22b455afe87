import Mathlib
import Tetra.TimeData

/-!
The container that only keeps the most recent elements, of which a node has one for each
peer with the inventory known to it.
-/
namespace Tetra

/-- The elements, and the same elements in the order they came in; no limit if `nMaxSize`
    is 0. -/
structure mruset (T : Type) where
  set : Finset T := ∅
  queue : List T := []
  nMaxSize : Nat := 0

namespace mruset
variable {T : Type} [DecidableEq T]

def new (nMaxSizeIn : Nat) : mruset T := {nMaxSize := nMaxSizeIn}

/-- `set.erase(queue.front())` and `queue.pop_front()`. -/
def evict (s : mruset T) : mruset T :=
  match s.queue with
  | [] => s
  | front :: rest => {s with set := s.set.erase front,queue := rest}

/-- What is returned is the element the iterator is at, and whether it was inserted. -/
def insert (s : mruset T) (x : T) : (T × Bool) × mruset T :=
  if x ∈ s.set then ((x,false),s)
  else
    let s := {s with set := Insert.insert x s.set}
    let s := if s.nMaxSize ≠ 0 ∧ s.queue.length = s.nMaxSize then s.evict else s
    ((x,true),{s with queue := s.queue ++ [x]})

/-- The loop of `max_size(s)`. -/
def shrink (m : mruset T) (s : Nat) : mruset T :=
  if s < m.queue.length then shrink m.evict s else m
termination_by m.queue.length
decreasing_by
  unfold evict
  split <;> simp_all

def max_size (m : mruset T) (s : Nat) : mruset T :=
  let m := if s ≠ 0 then m.shrink s else m
  {m with nMaxSize := s}

/-- A run of insertions, and those of them that were accepted. -/
def insertAll (s : mruset T) : List T → mruset T × List T
  | [] => (s,[])
  | x :: xs =>
    let ((_,inserted),s) := s.insert x
    let (s,accepted) := insertAll s xs
    (s,if inserted then x :: accepted else accepted)

/-- The set and the queue hold the same elements, each of them once. -/
structure Matched (s : mruset T) : Prop where
  same : s.set = s.queue.toFinset
  distinct : s.queue.Nodup

/-- The queue lists the last `n` of the accepted insertions. -/
structure Remembers (n : Nat) (accepted : List T) (s : mruset T) : Prop extends Matched s where
  limit : s.nMaxSize = n
  last : s.queue = lastN n accepted

theorem Matched.mem_iff {s : mruset T} (matched : s.Matched) (x : T) : x ∈ s.set ↔ x ∈ s.queue := by
  rw [matched.same,List.mem_toFinset]

@[simp] theorem queue_evict (s : mruset T) : s.evict.queue = s.queue.tail := by
  unfold evict
  split <;> simp [*]

@[simp] theorem nMaxSize_evict (s : mruset T) : s.evict.nMaxSize = s.nMaxSize := by
  unfold evict
  split <;> rfl

theorem Matched.evict {s : mruset T} (matched : s.Matched) : s.evict.Matched := by
  obtain ⟨same,distinct⟩ := matched
  unfold mruset.evict
  cases queued : s.queue with
  | nil => exact ⟨same,distinct⟩
  | cons front rest =>
    rw [queued] at same distinct
    obtain ⟨fresh,distinctRest⟩ := List.nodup_cons.mp distinct
    refine ⟨?_,distinctRest⟩
    show s.set.erase front = rest.toFinset
    rw [same,List.toFinset_cons,Finset.erase_insert (by simpa using fresh)]

/-- A container with an element more, for which there is room. -/
def push (s : mruset T) (x : T) : mruset T := {s with set := Insert.insert x s.set,queue := s.queue ++ [x]}

theorem Matched.push {s : mruset T} (matched : s.Matched) {x : T} (absent : x ∉ s.set) : (s.push x).Matched := by
  rw [matched.mem_iff] at absent
  refine ⟨?_,List.Nodup.append matched.distinct (List.nodup_singleton x) (by simpa using absent)⟩
  show Insert.insert x s.set = (s.queue ++ [x]).toFinset
  ext y
  simp [matched.same]

theorem insert_present {s : mruset T} {x : T} (present : x ∈ s.set) : s.insert x = ((x,false),s) := if_pos present

/-- The set is a member too large when it loses the first of the queue, which is never
    the new one. -/
theorem insert_absent {s : mruset T} (matched : s.Matched) {x : T} (absent : x ∉ s.set) :
    s.insert x = ((x,true),(if s.nMaxSize ≠ 0 ∧ s.queue.length = s.nMaxSize then s.evict else s).push x) := by
  unfold insert
  rw [if_neg absent]
  dsimp only
  split
  next full =>
    cases queued : s.queue with
    | nil => simp [queued] at full; exact absurd full.2.symm full.1
    | cons front rest =>
      have other : x ≠ front := fun same => absent ((matched.mem_iff x).mpr (by simp [queued,same]))
      simp [evict,push,queued,Finset.erase_insert_of_ne other]
  next room => rfl

theorem remembers_new (n : Nat) : Remembers n [] (new n : mruset T) := ⟨⟨rfl,List.nodup_nil⟩,rfl,List.drop_nil.symm⟩

theorem Remembers.insert {n : Nat} (positive : 0 < n) {accepted : List T} {s : mruset T} (remembers : Remembers n accepted s) {x : T}
    (absent : x ∉ s.set) : Remembers n (accepted ++ [x]) (s.insert x).2 := by
  obtain ⟨matched,limit,last⟩ := remembers
  rw [insert_absent matched absent]
  have room : (if s.nMaxSize ≠ 0 ∧ s.queue.length = s.nMaxSize then s.evict else s).queue ++ [x] = lastN n (accepted ++ [x]) := by
    rw [apply_ite mruset.queue,queue_evict,limit,last,← lastN_concat positive]
    simp [Nat.ne_of_gt positive]
  refine ⟨?_,?_,room⟩
  · apply Matched.push
    · split
      · exact matched.evict
      · exact matched
    · split
      · rw [matched.evict.mem_iff,queue_evict]
        exact fun member => absent ((matched.mem_iff x).mpr (List.mem_of_mem_tail member))
      · exact absent
  · show (if s.nMaxSize ≠ 0 ∧ s.queue.length = s.nMaxSize then s.evict else s).nMaxSize = n
    rw [apply_ite mruset.nMaxSize,nMaxSize_evict,ite_self,limit]

theorem Remembers.insertAll {n : Nat} (positive : 0 < n) {accepted : List T} {s : mruset T} (remembers : Remembers n accepted s) (xs : List T) :
    Remembers n (accepted ++ (s.insertAll xs).2) (s.insertAll xs).1 := by
  induction xs generalizing s accepted with
  | nil => simpa [mruset.insertAll] using remembers
  | cons x xs ih =>
    by_cases present : x ∈ s.set
    · simpa [mruset.insertAll,insert_present present] using ih remembers
    · have added := ih (remembers.insert positive present)
      simpa [mruset.insertAll,insert_absent remembers.toMatched present] using added

/-- What a container of the last `n` holds after a run of insertions. -/
theorem insertAll_recent {n : Nat} (positive : 0 < n) (xs : List T) :
    let (s,accepted) := (new n).insertAll xs
    s.queue = lastN n accepted ∧ s.queue.Nodup ∧ s.set = (lastN n accepted).toFinset ∧ (∀ x, x ∈ s.set ↔ x ∈ s.queue) ∧
      (∀ x ∈ s.set, s.insert x = ((x,false),s)) ∧ ∀ x ∉ s.set, (s.insert x).1 = (x,true) := by
  have remembers := (remembers_new n : Remembers n [] (new n : mruset T)).insertAll positive xs
  obtain ⟨matched,_,last⟩ := remembers
  rw [List.nil_append] at last
  refine ⟨last,matched.distinct,last ▸ matched.same,matched.mem_iff,fun x present => insert_present present,fun x absent => ?_⟩
  rw [insert_absent matched absent]

/-- The third insertion of 1 is accepted, as 1 is no longer among the last two. -/
theorem insertAll_recent_two : (0 : Nat) < 2 ∧
    let (s,accepted) := (new 2 : mruset Nat).insertAll [1,2,1,3,1]
    s.queue = lastN 2 accepted ∧ s.queue.Nodup ∧ s.set = (lastN 2 accepted).toFinset ∧ (∀ x, x ∈ s.set ↔ x ∈ s.queue) ∧
      (∀ x ∈ s.set, s.insert x = ((x,false),s)) ∧ ∀ x ∉ s.set, (s.insert x).1 = (x,true) :=
  ⟨two_pos,insertAll_recent two_pos [1,2,1,3,1]⟩

example : ((new 2 : mruset Nat).insertAll [1,2,1,3,1]).1.queue = [3,1] := by decide

/-! ### A limit set later -/

theorem Matched.shrink {m : mruset T} (matched : m.Matched) (s : Nat) : (m.shrink s).Matched ∧ (m.shrink s).queue = lastN s m.queue := by
  fun_induction mruset.shrink m s with
  | case1 m longer ih =>
    obtain ⟨matched,left⟩ := ih matched.evict
    refine ⟨matched,?_⟩
    have earlier : m.queue.length-1-s+1 = m.queue.length-s := by omega
    rw [left,queue_evict,lastN,lastN,List.length_tail,← List.drop_one,List.drop_drop,Nat.add_comm,earlier]
  | case2 m within =>
    refine ⟨matched,?_⟩
    rw [lastN,show m.queue.length-s = 0 by omega,List.drop_zero]

/-- A lower limit keeps the last ones of the queue, and as many as it allows. -/
theorem Matched.max_size {m : mruset T} (matched : m.Matched) {s : Nat} (positive : 0 < s) :
    (m.max_size s).Matched ∧ (m.max_size s).queue = lastN s m.queue ∧ (m.max_size s).nMaxSize = s := by
  obtain ⟨kept,left⟩ := matched.shrink s
  unfold mruset.max_size
  rw [if_pos positive.ne']
  exact ⟨⟨kept.same,kept.distinct⟩,left,rfl⟩

end mruset
end Tetra
