import Mathlib
import Tetra.Primitives

/-!
A queue of checks, worked off by any number of threads in batches. A step of the system
is one critical section of one thread, with the checks it has called before.
-/
namespace Tetra

section
variable {T : Type}

/-- The back of the queue comes first. -/
structure CCheckQueue (T : Type) where
  queue : List T := []
  nIdle : Int := 0
  nTotal : Int := 0
  fAllOk : Bool := true
  nTodo : UInt32 := 0
  fQuit : Bool := false
  nBatchSize : UInt32
  /-- Whether condMaster was notified since the master began to wait. -/
  condMaster : Bool := false

/-- Where a thread stands between two critical sections. -/
inductive Thread (T : Type) where
  | outside
  | waiting
  | working (nNow : UInt32) (vChecks : List T) (fOk : Bool)
  | returned (fRet : Bool)

namespace Thread

def inLoop : Thread T → Bool
  | waiting => true
  | working .. => true
  | _ => false

def isWaiting : Thread T → Bool
  | waiting => true
  | _ => false

def batch : Thread T → List T
  | working _ vChecks _ => vChecks
  | _ => []

end Thread

/-- The loop over a batch: its result, and the checks of it that are called. -/
def runBatch (check : T → Bool) : List T → Bool → Bool × List T
  | [], fOk => (fOk,[])
  | c :: vChecks, fOk =>
    if fOk then
      let (fOk,called) := runBatch check vChecks (check c)
      (fOk,c :: called)
    else runBatch check vChecks fOk

namespace CCheckQueue

def nNow (q : CCheckQueue T) : UInt32 := max 1 (min q.nBatchSize (UInt32.ofNat q.queue.length/UInt32.ofInt (q.nTotal+q.nIdle+1)))

/-- The critical section from `while (queue.empty())` on. -/
def loop (q : CCheckQueue T) (fMaster : Bool) : Thread T × CCheckQueue T :=
  if q.queue.isEmpty then
    if (fMaster || q.fQuit) && q.nTodo == 0 then
      (.returned q.fAllOk,{q with nTotal := q.nTotal-1,fAllOk := if fMaster then true else q.fAllOk})
    else (.waiting,{q with nIdle := q.nIdle+1,condMaster := if fMaster then false else q.condMaster})
  else (.working q.nNow (q.queue.take q.nNow.toNat) q.fAllOk,{q with queue := q.queue.drop q.nNow.toNat})

/-- The first critical section. -/
def enter (q : CCheckQueue T) (fMaster : Bool) : Thread T × CCheckQueue T := loop {q with nTotal := q.nTotal+1} fMaster

/-- A wait ends, notified or not. -/
def wake (q : CCheckQueue T) (fMaster : Bool) : Thread T × CCheckQueue T := loop {q with nIdle := q.nIdle-1} fMaster

/-- The critical section after a batch. -/
def finish (q : CCheckQueue T) (fMaster : Bool) (nNow : UInt32) (fOk : Bool) : Thread T × CCheckQueue T :=
  let nTodo := q.nTodo-nNow
  loop {q with fAllOk := q.fAllOk && fOk,nTodo := nTodo,condMaster := q.condMaster || nTodo == 0 && !fMaster} fMaster

/-- `notify` is left to the waits, which may end at any time. -/
def Add (q : CCheckQueue T) (vChecks : List T) : CCheckQueue T :=
  {q with queue := vChecks.foldl (fun queue c => c :: queue) q.queue,nTodo := q.nTodo+UInt32.ofNat vChecks.length}

end CCheckQueue

/-- The constructor of `CCheckQueueControl`. -/
def CCheckQueueControl.construct (pqueue : CCheckQueue T) : Except Reject Unit :=
  if ¬pqueue.nTotal = pqueue.nIdle then .error (.asserts "pqueue->nTotal == pqueue->nIdle")
  else if ¬pqueue.nTodo = 0 then .error (.asserts "pqueue->nTodo == 0")
  else if ¬pqueue.fAllOk = true then .error (.asserts "pqueue->fAllOk == true")
  else .ok ()

/-- What one `Wait` returned, with the checks added since the one before it, those of the
    batches completed since, and those of them that were called. -/
structure Waited (T : Type) where
  fRet : Bool
  added : List T
  completed : List T
  called : List T

/-- What a `Wait` returned is right: every check added since the one before it was in one
    batch, and was called once, unless one that was called had failed. -/
structure Waited.Right (check : T → Bool) (w : Waited T) : Prop where
  result : w.fRet = true ↔ ∀ c ∈ w.added, check c = true
  once : w.completed.Perm w.added
  calledOnce : w.called.Sublist w.completed
  all : w.fRet = true → w.called = w.completed
  failed : w.fRet = false → ∃ c ∈ w.called, check c = false

/-- The queue, its threads, and what happened since the last `Wait`. -/
structure CheckSystem (T : Type) where
  pool : CCheckQueue T
  master : Thread T := .outside
  workers : List (Thread T) := []
  added : List T := []
  completed : List T := []
  called : List T := []
  waits : List (Waited T) := []

inductive QueueEvent (T : Type) where
  | Add (vChecks : List T)
  | Wait
  /-- The next critical section of the master. -/
  | master
  /-- A new worker enters the loop. -/
  | Thread
  /-- The next critical section of a worker. -/
  | worker (i : Nat)

namespace CheckSystem

/-- What a thread did: where it stands, and the checks it completed and called. -/
structure Turn (T : Type) where
  thread : Thread T
  pool : CCheckQueue T
  completed : List T := []
  called : List T := []

def turn (check : T → Bool) (pool : CCheckQueue T) (fMaster : Bool) : Thread T → Option (Turn T)
  | .waiting => let (thread,pool) := pool.wake fMaster
    some {thread := thread,pool := pool}
  | .working nNow vChecks fOk =>
    let (fOk,called) := runBatch check vChecks fOk
    let (thread,pool) := pool.finish fMaster nNow fOk
    some {thread := thread,pool := pool,completed := vChecks,called := called}
  | _ => none

/-- The master goes on; when `Wait` returns, the next checks are new ones. -/
def masterTurn (s : CheckSystem T) (t : Turn T) : CheckSystem T :=
  let s := {s with pool := t.pool,master := t.thread,completed := s.completed ++ t.completed,called := s.called ++ t.called}
  match t.thread with
  | .returned fRet => {s with waits := s.waits ++ [⟨fRet,s.added,s.completed,s.called⟩],added := [],completed := [],called := []}
  | _ => s

def step (check : T → Bool) (s : CheckSystem T) : QueueEvent T → Option (CheckSystem T)
  | .Add vChecks => if s.master.inLoop then none else some {s with pool := s.pool.Add vChecks,added := s.added ++ vChecks}
  | .Wait =>
    if s.master.inLoop then none
    else
      let (thread,pool) := s.pool.enter true
      some (s.masterTurn {thread := thread,pool := pool})
  | .master => (turn check s.pool true s.master).map s.masterTurn
  | .Thread =>
    let (thread,pool) := s.pool.enter false
    some {s with pool := pool,workers := s.workers ++ [thread]}
  | .worker i =>
    match (s.workers[i]?).bind (turn check s.pool false) with
    | none => none
    | some t => some {s with
      pool := t.pool
      workers := s.workers.set i t.thread
      completed := s.completed ++ t.completed
      called := s.called ++ t.called}

def threads (s : CheckSystem T) : List (Thread T) := s.master :: s.workers

/-- The checks of the batches that threads have taken and not completed. -/
def taken (threads : List (Thread T)) : Multiset T := (threads.map fun t => (t.batch : Multiset T)).sum

def inFlight (s : CheckSystem T) : Nat := (s.threads.map fun t => t.batch.length).sum

/-- The states that are reached by way of allowed ones. -/
inductive Reached (check : T → Bool) (nBatchSize : UInt32) (allowed : CheckSystem T → Prop) : CheckSystem T → Prop
  | start : Reached check nBatchSize allowed {pool := {nBatchSize := nBatchSize}}
  | step {s after} (event : QueueEvent T) : Reached check nBatchSize allowed s → s.step check event = some after → allowed after →
      Reached check nBatchSize allowed after

/-! ### What every step keeps -/

variable {check : T → Bool} {pool : CCheckQueue T} {held : Nat} {others : List (Thread T)} {added completed called : List T}

/-- The counters count the threads, with those that hold the lock, and the checks; no check
    is lost or taken twice, and the flags tell whether one failed. -/
structure Exact (check : T → Bool) (pool : CCheckQueue T) (held : Nat) (threads : List (Thread T)) (added completed called : List T) : Prop where
  total : pool.nTotal = threads.countP Thread.inLoop+held
  idle : pool.nIdle = threads.countP Thread.isWaiting
  stays : pool.fQuit = false
  todo : pool.nTodo = UInt32.ofNat (pool.queue.length+(taken threads).card)
  kept : (pool.queue : Multiset T)+taken threads+(completed : Multiset T) = (added : Multiset T)
  filled : ∀ nNow vChecks fOk, .working nNow vChecks fOk ∈ threads →
    vChecks ≠ [] ∧ nNow = UInt32.ofNat vChecks.length ∧ (pool.fAllOk = true → fOk = true)
  inOrder : called.Sublist completed
  allOk : pool.fAllOk = true → called = completed ∧ ∀ c ∈ completed, check c = true
  failed : pool.fAllOk = false → ∃ c ∈ called, check c = false

theorem runBatch_spec (check : T → Bool) (vChecks : List T) (fOk : Bool) :
    (runBatch check vChecks fOk).2.Sublist vChecks ∧
    ((runBatch check vChecks fOk).1 = true → fOk = true ∧ (runBatch check vChecks fOk).2 = vChecks ∧ ∀ c ∈ vChecks, check c = true) ∧
    ((runBatch check vChecks fOk).1 = false → fOk = false ∨ ∃ c ∈ (runBatch check vChecks fOk).2, check c = false) := by
  induction vChecks generalizing fOk with
  | nil => cases fOk <;> simp [runBatch]
  | cons c vChecks ih =>
    rw [runBatch]
    cases fOk with
    | false =>
      obtain ⟨inside,passed,_⟩ := ih false
      refine ⟨inside.trans (List.sublist_cons_self ..),?_,fun _ => .inl rfl⟩
      intro ok
      exact absurd (passed ok).1 Bool.false_ne_true
    | true =>
      obtain ⟨inside,passed,broke⟩ := ih (check c)
      refine ⟨inside.cons_cons c,?_,?_⟩
      · intro ok
        obtain ⟨first,all,rest⟩ := passed ok
        refine ⟨rfl,congrArg (List.cons c) all,?_⟩
        rintro d member
        rcases List.mem_cons.mp member with rfl | later
        · exact first
        · exact rest d later
      · intro bad
        right
        rcases broke bad with first | ⟨d,member,fails⟩
        · exact ⟨c,List.mem_cons_self ..,first⟩
        · exact ⟨d,List.mem_cons_of_mem c member,fails⟩

theorem taken_cons (t : Thread T) (threads : List (Thread T)) : taken (t :: threads) = (t.batch : Multiset T)+taken threads := by
  simp [taken]

theorem taken_eq_zero {threads : List (Thread T)} : taken threads = 0 ↔ ∀ t ∈ threads, t.batch = [] := by
  rw [taken,List.sum_eq_zero_iff,List.forall_mem_map]
  simp only [Multiset.coe_eq_zero]

theorem Exact.perm {threads : List (Thread T)} (exact' : Exact check pool held others added completed called) (same : others.Perm threads) :
    Exact check pool held threads added completed called := by
  have all : taken others = taken threads := (same.map _).sum_eq
  obtain ⟨total,idle,stays,todo,kept,filled,inOrder,allOk,failed⟩ := exact'
  refine ⟨?_,?_,stays,?_,?_,?_,inOrder,allOk,failed⟩
  · rw [← same.countP_eq]
    exact total
  · rw [← same.countP_eq]
    exact idle
  · rw [← all]
    exact todo
  · rw [← all]
    exact kept
  · intro nNow vChecks fOk member
    exact filled nNow vChecks fOk (same.mem_iff.mpr member)

/-- A thread that is not in the loop does not count. -/
theorem exact_outside {t : Thread T} (out : t.inLoop = false) :
    Exact check pool held (t :: others) added completed called ↔ Exact check pool held others added completed called := by
  have none' : taken (t :: others) = taken others := by
    rw [taken_cons]
    cases t with
    | outside => exact zero_add _
    | returned => exact zero_add _
    | waiting => contradiction
    | working => contradiction
  have notWaiting : ¬t.isWaiting = true := by
    intro waiting
    cases t <;> contradiction
  constructor
  · rintro ⟨total,idle,stays,todo,kept,filled,inOrder,allOk,failed⟩
    rw [List.countP_cons_of_neg (Bool.eq_false_iff.mp out)] at total
    rw [List.countP_cons_of_neg notWaiting] at idle
    rw [none'] at todo kept
    exact ⟨total,idle,stays,todo,kept,fun nNow vChecks fOk member => filled nNow vChecks fOk (List.mem_cons_of_mem t member),inOrder,allOk,
      failed⟩
  · rintro ⟨total,idle,stays,todo,kept,filled,inOrder,allOk,failed⟩
    rw [← List.countP_cons_of_neg (Bool.eq_false_iff.mp out)] at total
    rw [← List.countP_cons_of_neg notWaiting] at idle
    rw [← none'] at todo kept
    refine ⟨total,idle,stays,todo,kept,?_,inOrder,allOk,failed⟩
    intro nNow vChecks fOk member
    rcases List.mem_cons.mp member with rfl | member
    · contradiction
    · exact filled nNow vChecks fOk member

/-! ### The critical sections -/

theorem nNow_fits {pool : CCheckQueue T} (filled : pool.queue ≠ []) : 1 ≤ pool.nNow.toNat ∧ pool.nNow.toNat ≤ pool.queue.length := by
  have some' : 0 < pool.queue.length := List.length_pos_iff.mpr filled
  have share : (UInt32.ofNat pool.queue.length/UInt32.ofInt (pool.nTotal+pool.nIdle+1)).toNat ≤ pool.queue.length := by
    rw [UInt32.toNat_div,UInt32.toNat_ofNat']
    exact (Nat.div_le_self ..).trans (Nat.mod_le ..)
  rw [CCheckQueue.nNow,UInt32.toNat_max,UInt32.toNat_min]
  exact ⟨le_max_left ..,max_le some' ((min_le_right ..).trans share)⟩

theorem loop_cases (pool : CCheckQueue T) (fMaster : Bool) :
    (pool.queue = [] ∧ ((fMaster || pool.fQuit) && pool.nTodo == 0) = true ∧
      pool.loop fMaster = (.returned pool.fAllOk,{pool with nTotal := pool.nTotal-1,fAllOk := if fMaster then true else pool.fAllOk})) ∨
    (pool.queue = [] ∧ ((fMaster || pool.fQuit) && pool.nTodo == 0) = false ∧
      pool.loop fMaster = (.waiting,{pool with nIdle := pool.nIdle+1,condMaster := if fMaster then false else pool.condMaster})) ∨
    (pool.queue ≠ [] ∧ pool.loop fMaster =
      (.working pool.nNow (pool.queue.take pool.nNow.toNat) pool.fAllOk,{pool with queue := pool.queue.drop pool.nNow.toNat})) := by
  rw [CCheckQueue.loop]
  by_cases empty : pool.queue = []
  · rw [if_pos (List.isEmpty_iff.mpr empty)]
    cases leaves : (fMaster || pool.fQuit) && pool.nTodo == 0 with
    | true => exact .inl ⟨empty,rfl,rfl⟩
    | false => exact .inr (.inl ⟨empty,rfl,rfl⟩)
  · rw [if_neg (mt List.isEmpty_iff.mp empty)]
    exact .inr (.inr ⟨empty,rfl⟩)

theorem Exact.enter (exact' : Exact check pool 0 others added completed called) :
    Exact check {pool with nTotal := pool.nTotal+1} 1 others added completed called := by
  obtain ⟨total,idle,stays,todo,kept,filled,inOrder,allOk,failed⟩ := exact'
  refine ⟨?_,idle,stays,todo,kept,filled,inOrder,allOk,failed⟩
  show pool.nTotal+1 = _
  omega

theorem Exact.wake (exact' : Exact check pool 0 (.waiting :: others) added completed called) :
    Exact check {pool with nIdle := pool.nIdle-1} 1 others added completed called := by
  obtain ⟨total,idle,stays,todo,kept,filled,inOrder,allOk,failed⟩ := exact'
  rw [List.countP_cons_of_pos rfl] at total idle
  have none' : taken (.waiting :: others) = taken others := by
    rw [taken_cons]
    exact zero_add _
  rw [none'] at todo kept
  refine ⟨?_,?_,stays,todo,kept,fun nNow vChecks fOk member => filled nNow vChecks fOk (List.mem_cons_of_mem _ member),inOrder,allOk,failed⟩
  · show pool.nTotal = _
    omega
  · show pool.nIdle-1 = _
    omega

theorem Exact.finish {nNow : UInt32} {vChecks : List T} {fOk : Bool} {notified : Bool}
    (exact' : Exact check pool 0 (.working nNow vChecks fOk :: others) added completed called) :
    Exact check {pool with fAllOk := pool.fAllOk && (runBatch check vChecks fOk).1,nTodo := pool.nTodo-nNow,condMaster := notified} 1 others added
      (completed ++ vChecks) (called ++ (runBatch check vChecks fOk).2) := by
  obtain ⟨total,idle,stays,todo,kept,filled,inOrder,allOk,failed⟩ := exact'
  obtain ⟨_,counted,sampled⟩ := filled nNow vChecks fOk (List.mem_cons_self ..)
  obtain ⟨inside,passed,broke⟩ := runBatch_spec check vChecks fOk
  rw [List.countP_cons_of_pos rfl] at total
  rw [List.countP_cons_of_neg Bool.false_ne_true] at idle
  rw [taken_cons] at todo kept
  refine ⟨?_,idle,stays,?_,?_,?_,inOrder.append inside,?_,?_⟩
  · show pool.nTotal = _
    omega
  · show pool.nTodo-nNow = _
    have parts : pool.queue.length+((vChecks : Multiset T)+taken others).card = pool.queue.length+(taken others).card+vChecks.length := by
      rw [Multiset.card_add,Multiset.coe_card]
      omega
    rw [todo,counted]
    show UInt32.ofNat (pool.queue.length+((vChecks : Multiset T)+taken others).card)-_ = _
    rw [parts,UInt32.ofNat_add,UInt32.add_sub_cancel]
  · rw [← kept,← Multiset.coe_add]
    show _ = (pool.queue : Multiset T)+((vChecks : Multiset T)+taken others)+_
    abel
  · intro nNow vChecks fOk member
    obtain ⟨some',sized,first⟩ := filled nNow vChecks fOk (List.mem_cons_of_mem _ member)
    exact ⟨some',sized,fun ok => first (Bool.and_eq_true_iff.mp ok).1⟩
  · intro ok
    obtain ⟨before,now⟩ := Bool.and_eq_true_iff.mp ok
    obtain ⟨same,good⟩ := allOk before
    obtain ⟨_,all,fine⟩ := passed now
    refine ⟨by rw [same,all],?_⟩
    intro c member
    rcases List.mem_append.mp member with old | new
    · exact good c old
    · exact fine c new
  · intro bad
    cases before : pool.fAllOk with
    | false =>
      obtain ⟨c,member,fails⟩ := failed before
      exact ⟨c,List.mem_append_left _ member,fails⟩
    | true =>
      -- The batch began with the flag set, so it is one of its own checks that failed.
      rcases broke (by rw [before] at bad; exact bad) with off | ⟨c,member,fails⟩
      · rw [sampled before] at off
        contradiction
      · exact ⟨c,List.mem_append_right _ member,fails⟩

theorem Exact.waits {notified : Bool} (exact' : Exact check pool 1 others added completed called) :
    Exact check {pool with nIdle := pool.nIdle+1,condMaster := notified} 0 (.waiting :: others) added completed called := by
  obtain ⟨total,idle,stays,todo,kept,filled,inOrder,allOk,failed⟩ := exact'
  have none' : taken (.waiting :: others) = taken others := by
    rw [taken_cons]
    exact zero_add _
  refine ⟨?_,?_,stays,by rw [none']; exact todo,by rw [none']; exact kept,?_,inOrder,allOk,failed⟩
  · rw [List.countP_cons_of_pos rfl]
    show pool.nTotal = _
    omega
  · rw [List.countP_cons_of_pos rfl]
    show pool.nIdle+1 = _
    omega
  · intro nNow vChecks fOk member
    rcases List.mem_cons.mp member with same | member
    · contradiction
    · exact filled nNow vChecks fOk member

theorem Exact.takes (exact' : Exact check pool 1 others added completed called) (some' : pool.queue ≠ []) :
    Exact check {pool with queue := pool.queue.drop pool.nNow.toNat} 0
      (.working pool.nNow (pool.queue.take pool.nNow.toNat) pool.fAllOk :: others) added completed called := by
  obtain ⟨total,idle,stays,todo,kept,filled,inOrder,allOk,failed⟩ := exact'
  obtain ⟨one,fits⟩ := nNow_fits some'
  have sized : (pool.queue.take pool.nNow.toNat).length = pool.nNow.toNat := by rw [List.length_take,Nat.min_eq_left fits]
  have parts : (pool.queue.drop pool.nNow.toNat : Multiset T)+(pool.queue.take pool.nNow.toNat : Multiset T) = pool.queue := by
    rw [add_comm,Multiset.coe_add,List.take_append_drop]
  have all : (pool.queue.drop pool.nNow.toNat : Multiset T)+
      taken (.working pool.nNow (pool.queue.take pool.nNow.toNat) pool.fAllOk :: others) = (pool.queue : Multiset T)+taken others := by
    rw [taken_cons,← add_assoc]
    exact congrArg (·+taken others) parts
  refine ⟨?_,?_,stays,?_,?_,?_,inOrder,allOk,failed⟩
  · rw [List.countP_cons_of_pos rfl]
    show pool.nTotal = _
    omega
  · rw [List.countP_cons_of_neg Bool.false_ne_true]
    exact idle
  · have count := congrArg Multiset.card all
    rw [Multiset.card_add,Multiset.card_add,Multiset.coe_card,Multiset.coe_card] at count
    rw [count]
    exact todo
  · rw [all]
    exact kept
  · intro nNow vChecks fOk member
    rcases List.mem_cons.mp member with same | member
    · obtain ⟨rfl,rfl,rfl⟩ := Thread.working.inj same
      refine ⟨?_,by rw [sized,UInt32.ofNat_toNat],id⟩
      intro empty
      rw [empty] at sized
      exact absurd sized (by simp; omega)
    · exact filled nNow vChecks fOk member

theorem Exact.add (exact' : Exact check pool held others added completed called) (vChecks : List T) :
    Exact check (pool.Add vChecks) held others (added ++ vChecks) completed called := by
  obtain ⟨total,idle,stays,todo,kept,filled,inOrder,allOk,failed⟩ := exact'
  have queue : (pool.Add vChecks).queue = vChecks.reverse ++ pool.queue := List.foldl_flip_cons_eq_append'
  refine ⟨total,idle,stays,?_,?_,filled,inOrder,allOk,failed⟩
  · rw [queue,List.length_append,List.length_reverse,Nat.add_assoc,Nat.add_comm,UInt32.ofNat_add,← todo]
    rfl
  · rw [queue,← Multiset.coe_add,← Multiset.coe_add,← kept,Multiset.coe_reverse]
    abel

/-! ### The system -/

/-- Nobody else is at work when the last check is done. -/
theorem Exact.returns (exact' : Exact check pool 1 others added completed called) (empty : pool.queue = []) (done : pool.nTodo = 0)
    (room : (taken others).card < 2^32) :
    Exact check {pool with nTotal := pool.nTotal-1,fAllOk := true} 0 others [] [] [] ∧
      Waited.Right check ⟨pool.fAllOk,added,completed,called⟩ := by
  obtain ⟨total,idle,stays,todo,kept,filled,inOrder,allOk,failed⟩ := exact'
  have none' : taken others = 0 := by
    rw [done,empty,List.length_nil,Nat.zero_add,eq_comm,UInt32.ofNat_eq_iff_mod_eq_toNat,Nat.mod_eq_of_lt room] at todo
    exact Multiset.card_eq_zero.mp todo
  have once : completed.Perm added := by
    rw [empty,none',Multiset.coe_nil,zero_add,zero_add] at kept
    exact Multiset.coe_eq_coe.mp kept
  refine ⟨⟨?_,idle,stays,?_,?_,?_,List.Sublist.refl [],fun _ => ⟨rfl,nofun⟩,nofun⟩,?_,once,inOrder,fun ok => (allOk ok).1,failed⟩
  · show pool.nTotal-1 = _
    omega
  · show pool.nTodo = UInt32.ofNat (pool.queue.length+_)
    rw [done,empty,none']
    rfl
  · rw [empty,none']
    rfl
  · intro nNow vChecks fOk member
    exact absurd (taken_eq_zero.mp none' _ member) (filled nNow vChecks fOk member).1
  · constructor
    · intro ok c member
      exact (allOk ok).2 c (once.mem_iff.mpr member)
    · intro good
      by_contra bad
      obtain ⟨c,member,fails⟩ := failed (Bool.not_eq_true _ ▸ bad)
      rw [good c (once.mem_iff.mp (inOrder.subset member))] at fails
      contradiction

/-- What holds of every state that is reached. -/
structure Inv (check : T → Bool) (s : CheckSystem T) : Prop where
  exact' : Exact check s.pool 0 s.threads s.added s.completed s.called
  workers : ∀ t ∈ s.workers, t.inLoop = true
  /-- The master that waits will be notified, or has been. -/
  heard : s.master = .waiting → s.pool.queue = [] ∧ (s.pool.nTodo ≠ 0 ∨ s.pool.condMaster = true)
  right : ∀ w ∈ s.waits, w.Right check

theorem inv_start (check : T → Bool) (nBatchSize : UInt32) : Inv check {pool := {nBatchSize := nBatchSize}} := by
  refine ⟨⟨rfl,rfl,rfl,rfl,rfl,?_,List.Sublist.refl [],fun _ => ⟨rfl,nofun⟩,nofun⟩,nofun,nofun,nofun⟩
  intro nNow vChecks fOk member
  exact absurd (List.mem_singleton.mp member) nofun

theorem inFlight_eq (s : CheckSystem T) : s.inFlight = (taken s.threads).card := by
  rw [inFlight,taken]
  induction s.threads with
  | nil => rfl
  | cons t threads ih => rw [List.map_cons,List.sum_cons,ih,List.map_cons,List.sum_cons,Multiset.card_add,Multiset.coe_card]

/-- The master in the critical section, with what it completed before. -/
theorem master_inv {s : CheckSystem T} (locked : Exact check pool 1 s.workers s.added (s.completed ++ completed) (s.called ++ called))
    (workers : ∀ t ∈ s.workers, t.inLoop = true) (right : ∀ w ∈ s.waits, w.Right check)
    (room : (s.masterTurn ⟨(pool.loop true).1,(pool.loop true).2,completed,called⟩).inFlight < 2^32) :
    Inv check (s.masterTurn ⟨(pool.loop true).1,(pool.loop true).2,completed,called⟩) := by
  rw [inFlight_eq] at room
  rcases loop_cases pool true with ⟨empty,leaves,looped⟩ | ⟨empty,stays,looped⟩ | ⟨some',looped⟩
  · rw [looped] at room ⊢
    have done : pool.nTodo = 0 := beq_iff_eq.mp (by simpa using leaves)
    obtain ⟨exact',now⟩ := locked.returns empty done (by simpa [threads,masterTurn,taken_cons,Thread.batch] using room)
    refine ⟨(exact_outside rfl).mpr exact',workers,nofun,?_⟩
    · intro w member
      rcases List.mem_append.mp member with old | new
      · exact right w old
      · rw [List.mem_singleton.mp new]
        exact now
  · rw [looped]
    refine ⟨locked.waits,workers,fun _ => ⟨empty,.inl ?_⟩,right⟩
    intro done
    rw [show pool.nTodo = 0 from done] at stays
    contradiction
  · rw [looped]
    exact ⟨locked.takes some',workers,nofun,right⟩

/-- A worker in the critical section: it stays in the loop. -/
theorem worker_loop (locked : Exact check pool 1 others added completed called) :
    Exact check (pool.loop false).2 0 ((pool.loop false).1 :: others) added completed called ∧ (pool.loop false).1.inLoop = true ∧
      (pool.queue = [] → (pool.loop false).2.queue = []) ∧ (pool.loop false).2.nTodo = pool.nTodo ∧
      (pool.loop false).2.condMaster = pool.condMaster := by
  rcases loop_cases pool false with ⟨_,leaves,_⟩ | ⟨empty,_,looped⟩ | ⟨some',looped⟩
  · rw [locked.stays] at leaves
    contradiction
  · rw [looped]
    exact ⟨locked.waits,rfl,id,rfl,rfl⟩
  · rw [looped]
    exact ⟨locked.takes some',rfl,fun empty => absurd empty some',rfl,rfl⟩

theorem worker_inv {s : CheckSystem T} {rest workers : List (Thread T)} (locked : Exact check pool 1 (s.master :: rest) s.added completed called)
    (parts : ((pool.loop false).1 :: rest).Perm workers) (stay : ∀ t ∈ rest, t.inLoop = true)
    (heard : s.master = .waiting → pool.queue = [] ∧ (pool.nTodo ≠ 0 ∨ pool.condMaster = true)) (right : ∀ w ∈ s.waits, w.Right check) :
    Inv check {s with pool := (pool.loop false).2,workers := workers,completed := completed,called := called} := by
  obtain ⟨looped,stays,empties,todo,notified⟩ := worker_loop locked
  refine ⟨looped.perm ((List.Perm.swap ..).trans (parts.cons s.master)),?_,?_,right⟩
  · intro t member
    rcases List.mem_cons.mp (parts.mem_iff.mpr member) with rfl | old
    · exact stays
    · exact stay t old
  · intro waiting
    obtain ⟨empty,told⟩ := heard waiting
    refine ⟨empties empty,?_⟩
    rw [todo,notified]
    exact told

theorem Inv.step {s after : CheckSystem T} {event : QueueEvent T} (inv : Inv check s) (stepped : s.step check event = some after)
    (room : after.inFlight < 2^32) : Inv check after := by
  obtain ⟨exact',workers,heard,right⟩ := inv
  cases event with
  | Add vChecks =>
    rw [CheckSystem.step] at stepped
    split at stepped
    · contradiction
    next out =>
      obtain rfl := Option.some.inj stepped
      refine ⟨exact'.add vChecks,workers,?_,right⟩
      intro waiting
      rw [show s.master = .waiting from waiting] at out
      exact absurd rfl out
  | Wait =>
    rw [CheckSystem.step] at stepped
    split at stepped
    · contradiction
    next out =>
      obtain rfl := Option.some.inj stepped
      have locked := ((exact_outside (Bool.eq_false_iff.mpr out)).mp exact').enter
      rw [← List.append_nil s.completed,← List.append_nil s.called] at locked
      exact master_inv locked workers right room
  | master =>
    rw [CheckSystem.step] at stepped
    cases place : s.master with
    | outside =>
      rw [place] at stepped
      contradiction
    | returned =>
      rw [place] at stepped
      contradiction
    | waiting =>
      rw [place] at stepped
      obtain rfl := Option.some.inj stepped
      rw [threads,place] at exact'
      have locked := exact'.wake
      rw [← List.append_nil s.completed,← List.append_nil s.called] at locked
      exact master_inv locked workers right room
    | working nNow vChecks fOk =>
      rw [place] at stepped
      obtain rfl := Option.some.inj stepped
      rw [threads,place] at exact'
      exact master_inv exact'.finish workers right room
  | Thread =>
    have next : s.step check .Thread = some {s with pool := (s.pool.enter false).2,workers := s.workers ++ [(s.pool.enter false).1]} := rfl
    rw [next] at stepped
    obtain rfl := Option.some.inj stepped
    exact worker_inv exact'.enter (List.perm_append_singleton _ _).symm workers heard right
  | worker i =>
    rw [CheckSystem.step] at stepped
    split at stepped
    · contradiction
    next t turned =>
      obtain rfl := Option.some.inj stepped
      obtain ⟨thread,found,turned⟩ := Option.bind_eq_some_iff.mp turned
      obtain ⟨low,here⟩ := List.getElem?_eq_some_iff.mp found
      obtain ⟨before,after,parts,_,put⟩ := @List.exists_of_set _ i t.thread s.workers low
      rw [here] at parts
      have front : s.threads.Perm (thread :: s.master :: (before ++ after)) := by
        rw [threads,parts]
        exact (List.perm_middle.cons s.master).trans (List.Perm.swap ..)
      have stay : ∀ t ∈ before ++ after, t.inLoop = true := by
        intro t member
        refine workers t ?_
        rw [parts]
        exact List.mem_append.mpr ((List.mem_append.mp member).imp_right (List.mem_cons_of_mem thread))
      have back : (t.thread :: (before ++ after)).Perm (s.workers.set i t.thread) := by
        rw [put]
        exact List.perm_middle.symm
      have counted := exact'.perm front
      cases thread with
      | outside => contradiction
      | returned => contradiction
      | waiting =>
        obtain rfl := Option.some.inj turned
        dsimp only
        rw [List.append_nil,List.append_nil]
        exact worker_inv counted.wake back stay heard right
      | working nNow vChecks fOk =>
        obtain rfl := Option.some.inj turned
        refine worker_inv counted.finish back stay ?_ right
        intro waiting
        refine ⟨(heard waiting).1,?_⟩
        by_cases done : s.pool.nTodo-nNow = 0
        · right
          show (s.pool.condMaster || s.pool.nTodo-nNow == 0 && !false) = true
          rw [done]
          simp
        · exact .inl done

theorem Reached.inv {nBatchSize : UInt32} {s : CheckSystem T} (reached : Reached check nBatchSize (fun s => s.inFlight < 2^32) s) : Inv check s := by
  induction reached with
  | start => exact inv_start check nBatchSize
  | step event _ stepped room ih => exact ih.step stepped room

/-- As long as fewer than 2^32 checks are in batches that threads work on: every `Wait` is
    right, and no check is lost or taken twice; whenever the master is outside, with
    nothing added since, the queue is as the next block needs it; and while the master waits
    some thread is at work or it was notified. -/
theorem parallel_checks_exact {nBatchSize : UInt32} {s : CheckSystem T} (reached : Reached check nBatchSize (fun s => s.inFlight < 2^32) s) :
    (∀ w ∈ s.waits, w.Right check) ∧
      (s.pool.queue : Multiset T)+taken s.threads+(s.completed : Multiset T) = (s.added : Multiset T) ∧ s.called.Sublist s.completed ∧
      (s.master.inLoop = false → s.added = [] → s.pool.nTodo = 0 ∧ s.pool.queue = [] ∧ s.pool.fAllOk = true ∧ s.pool.nIdle = s.pool.nTotal ∧
        s.pool.nTotal = s.workers.length ∧ CCheckQueueControl.construct s.pool = .ok ()) ∧
      (s.master.inLoop = true → (∃ t ∈ s.threads, t.batch ≠ []) ∨ s.pool.condMaster = true) := by
  obtain ⟨exact',workers,heard,right⟩ := reached.inv
  refine ⟨right,exact'.kept,exact'.inOrder,?_,?_⟩
  · intro out fresh
    obtain ⟨total,idle,_,todo,kept,filled,inOrder,_,failed⟩ := (exact_outside out).mp exact'
    have sizes := congrArg Multiset.card kept
    rw [fresh,Multiset.card_add,Multiset.card_add,Multiset.coe_card,Multiset.coe_card,Multiset.coe_card,List.length_nil] at sizes
    have empty : s.pool.queue = [] := List.length_eq_zero_iff.mp (by omega)
    have none' : taken s.workers = 0 := Multiset.card_eq_zero.mp (by omega)
    have uncalled : s.called = [] := List.length_eq_zero_iff.mp (by have := inOrder.length_le; omega)
    have done : s.pool.nTodo = 0 := by
      rw [todo,empty,none']
      rfl
    have ok : s.pool.fAllOk = true := by
      by_contra bad
      obtain ⟨c,member,_⟩ := failed (Bool.not_eq_true _ ▸ bad)
      rw [uncalled] at member
      contradiction
    have allWait : ∀ t ∈ s.workers, t.isWaiting = true := by
      intro t member
      cases t with
      | waiting => rfl
      | working nNow vChecks fOk => exact absurd (taken_eq_zero.mp none' _ member) (filled nNow vChecks fOk member).1
      | outside => exact workers _ member
      | returned => exact workers _ member
    rw [List.countP_eq_length.mpr workers] at total
    rw [List.countP_eq_length.mpr allWait] at idle
    have same : s.pool.nTotal = s.pool.nIdle := by omega
    refine ⟨done,empty,ok,same.symm,by omega,?_⟩
    rw [CCheckQueueControl.construct,if_neg (not_not.mpr same),if_neg (not_not.mpr done),if_neg (not_not.mpr ok)]
  · intro inside
    cases place : s.master with
    | outside =>
      rw [place] at inside
      contradiction
    | returned =>
      rw [place] at inside
      contradiction
    | working nNow vChecks fOk =>
      have here : .working nNow vChecks fOk ∈ s.threads := by
        rw [← place]
        exact List.mem_cons_self ..
      exact .inl ⟨_,here,(exact'.filled nNow vChecks fOk here).1⟩
    | waiting =>
      obtain ⟨empty,left | notified⟩ := heard place
      · left
        by_contra idle
        push Not at idle
        apply left
        rw [exact'.todo,empty,taken_eq_zero.mpr idle]
        rfl
      · exact .inr notified

/-- Two workers and two blocks: the first has a check that fails, and a worker wakes up
    for nothing. -/
theorem parallel_checks_exact_sample :
    ∃ s, Reached id 128 (fun s => s.inFlight < 2^32) s ∧ s.waits.map Waited.fRet = [false,true] ∧ (∀ w ∈ s.waits, w.Right id) ∧
      CCheckQueueControl.construct s.pool = .ok () := by
  have started : Reached id 128 (fun s => s.inFlight < 2^32) {pool := {nBatchSize := 128}} := .start
  have filled := ((started.step .Thread rfl (by decide)).step (.Add [true,false,true]) rfl (by decide)).step .Thread rfl (by decide)
  have waited := ((filled.step .Wait rfl (by decide)).step (.worker 1) rfl (by decide)).step .master rfl (by decide)
  have returned := ((waited.step (.worker 0) rfl (by decide)).step (.worker 1) rfl (by decide)).step .master rfl (by decide)
  have again := ((returned.step (.Add [true]) rfl (by decide)).step .Wait rfl (by decide)).step .master rfl (by decide)
  obtain ⟨right,_,_,unused,_⟩ := parallel_checks_exact again
  exact ⟨_,again,by decide,right,(unused rfl rfl).2.2.2.2.2⟩

/-! ### Too many checks -/

/-- Every state counts. -/
private abbrev ReachedAny : CheckSystem Bool → Prop := Reached id 4294967295 fun _ => True

private theorem runBatch_trues (k : Nat) : runBatch id (List.replicate k true) true = (true,List.replicate k true) := by
  induction k with
  | zero => rfl
  | succ k ih =>
    rw [List.replicate_succ,runBatch,if_pos rfl]
    show ((runBatch id (List.replicate k true) true).1,true :: (runBatch id (List.replicate k true) true).2) = _
    rw [ih]

/-- The master works off what is left, and returns. The induction is on what is left. -/
private theorem drains {m k : Nat} {s : CheckSystem Bool} (reached : ReachedAny s)
    (working : s.master = .working (UInt32.ofNat k) (List.replicate k true) true) (queue : s.pool.queue = List.replicate m true)
    (ok : s.pool.fAllOk = true) (todo : s.pool.nTodo = UInt32.ofNat (m+k)) :
    ∃ t, ReachedAny t ∧ ∃ w ∈ t.waits, w.fRet = true ∧ w.added = s.added := by
  induction m using Nat.strong_induction_on generalizing k s with
  | _ m ih =>
    let pool : CCheckQueue Bool := {s.pool with
      fAllOk := s.pool.fAllOk && (runBatch id (List.replicate k true) true).1
      nTodo := s.pool.nTodo-UInt32.ofNat k
      condMaster := s.pool.condMaster || s.pool.nTodo-UInt32.ofNat k == 0 && !true}
    have next : s.step id .master =
        some (s.masterTurn ⟨(pool.loop true).1,(pool.loop true).2,List.replicate k true,(runBatch id (List.replicate k true) true).2⟩) := by
      rw [step,working]
      rfl
    have done : pool.nTodo = UInt32.ofNat m := by
      show s.pool.nTodo-UInt32.ofNat k = _
      rw [todo,UInt32.ofNat_add,UInt32.add_sub_cancel]
    have still : pool.fAllOk = true := by
      show (s.pool.fAllOk && _) = true
      rw [ok,runBatch_trues]
      rfl
    have left : pool.queue = List.replicate m true := queue
    have after := Reached.step .master reached next trivial
    rcases loop_cases pool true with ⟨_,_,looped⟩ | ⟨empty,stays,_⟩ | ⟨some',looped⟩
    · rw [looped] at after
      exact ⟨_,after,_,List.mem_append_right _ (List.mem_singleton_self _),still,rfl⟩
    · rw [left,List.replicate_eq_nil_iff] at empty
      rw [done,empty] at stays
      contradiction
    · rw [looped] at after
      obtain ⟨one,fits⟩ := nNow_fits some'
      rw [left,List.length_replicate] at fits
      have batch : Thread.working pool.nNow (pool.queue.take pool.nNow.toNat) pool.fAllOk =
          .working (UInt32.ofNat pool.nNow.toNat) (List.replicate pool.nNow.toNat true) true := by
        rw [left,still,List.take_replicate,Nat.min_eq_left fits,UInt32.ofNat_toNat]
      have rest : pool.queue.drop pool.nNow.toNat = List.replicate (m-pool.nNow.toNat) true := by rw [left,List.drop_replicate]
      have count : pool.nTodo = UInt32.ofNat (m-pool.nNow.toNat+pool.nNow.toNat) := by rw [done,Nat.sub_add_cancel fits]
      have less : m-pool.nNow.toNat < m := by omega
      obtain ⟨t,there,w,member,right,same⟩ := @ih (m-pool.nNow.toNat) less pool.nNow.toNat _ after batch rest still count
      exact ⟨t,there,w,member,right,same⟩

/-- The workers have taken their batches, the rest is still in the queue, and nobody has
    finished. -/
private structure Piled (s : CheckSystem Bool) (queue : List Bool) (nTotal inFlight : Nat) : Prop where
  reached : ReachedAny s
  left : s.pool.queue = queue
  idle : s.pool.nIdle = 0
  total : s.pool.nTotal = nTotal
  ok : s.pool.fAllOk = true
  sized : s.pool.nBatchSize = 4294967295
  todo : s.pool.nTodo = UInt32.ofNat (queue.length+inFlight)
  outside : s.master = .outside
  fails : false ∈ s.added

private theorem Piled.add {s : CheckSystem Bool} {queue : List Bool} {nTotal inFlight : Nat} (piled : Piled s queue nTotal inFlight) (k : Nat) :
    ∃ after, Piled after (List.replicate k true ++ queue) nTotal inFlight := by
  obtain ⟨reached,same,idle,total,ok,sized,todo,outside,fails⟩ := piled
  have next : s.step id (.Add (List.replicate k true)) =
      some {s with pool := s.pool.Add (List.replicate k true),added := s.added ++ List.replicate k true} := by
    rw [step,outside]
    rfl
  refine ⟨_,.step _ reached next trivial,?_,idle,total,ok,sized,?_,outside,List.mem_append_left _ fails⟩
  · show (List.replicate k true).foldl (fun queue c => c :: queue) s.pool.queue = _
    rw [List.foldl_flip_cons_eq_append',List.reverse_replicate,same]
  · show s.pool.nTodo+UInt32.ofNat (List.replicate k true).length = _
    rw [todo,← UInt32.ofNat_add,List.length_append]
    congr 1
    omega

private theorem Piled.take {s : CheckSystem Bool} {queue : List Bool} {nTotal inFlight : Nat} (piled : Piled s queue nTotal inFlight)
    (some' : queue ≠ []) {k : Nat}
    (share : max 1 (min 4294967295 (UInt32.ofNat queue.length/UInt32.ofInt ((nTotal : Int)+1+0+1))) = UInt32.ofNat k) (low : k < 2^32) :
    ∃ after, Piled after (queue.drop k) (nTotal+1) (inFlight+k) := by
  obtain ⟨reached,rfl,idle,total,ok,sized,todo,outside,fails⟩ := piled
  let pool : CCheckQueue Bool := {s.pool with nTotal := s.pool.nTotal+1}
  have nNow : pool.nNow.toNat = k := by
    show (max 1 (min s.pool.nBatchSize (UInt32.ofNat s.pool.queue.length/UInt32.ofInt (s.pool.nTotal+1+s.pool.nIdle+1)))).toNat = k
    rw [sized,total,idle,share,UInt32.toNat_ofNat',Nat.mod_eq_of_lt low]
  have next : s.step id .Thread = some {s with pool := (pool.loop false).2,workers := s.workers ++ [(pool.loop false).1]} := rfl
  obtain ⟨_,fits⟩ := @nNow_fits _ pool some'
  rcases loop_cases pool false with ⟨empty,_⟩ | ⟨empty,_⟩ | ⟨_,looped⟩
  · exact absurd empty some'
  · exact absurd empty some'
  · rw [looped,nNow] at next
    rw [nNow] at fits
    refine ⟨_,.step _ reached next trivial,rfl,idle,?_,ok,sized,?_,outside,fails⟩
    · show s.pool.nTotal+1 = _
      rw [total]
      rfl
    · show s.pool.nTodo = _
      rw [todo,List.length_drop]
      congr 1
      have : k ≤ s.pool.queue.length := fits
      omega

private theorem piled_first (n : Nat) : ∃ s, Piled s (false :: List.replicate n true) 0 0 := by
  refine ⟨_,.step (.Add (List.replicate n true ++ [false])) .start rfl trivial,?_,rfl,rfl,rfl,rfl,?_,rfl,?_⟩
  · show (List.replicate n true ++ [false]).foldl (fun queue c => c :: queue) [] = _
    rw [List.foldl_flip_cons_eq_append',List.reverse_append,List.reverse_replicate,List.append_nil]
    rfl
  · show 0+UInt32.ofNat (List.replicate n true ++ [false]).length = _
    simp
  · exact List.mem_append_right _ (List.mem_append_right _ (List.mem_singleton_self _))

section
variable {s : CheckSystem Bool} {m k nTotal inFlight : Nat}

private theorem Piled.takeFirst (piled : Piled s (false :: List.replicate m true) nTotal inFlight)
    (share : max 1 (min 4294967295 (UInt32.ofNat (m+1)/UInt32.ofInt ((nTotal : Int)+1+0+1))) = UInt32.ofNat (k+1)) (low : k+1 < 2^32) :
    ∃ after, Piled after (List.replicate (m-k) true) (nTotal+1) (inFlight+(k+1)) := by
  rw [← @List.drop_replicate Bool true k m,← List.drop_succ_cons]
  refine piled.take (List.cons_ne_nil _ _) ?_ low
  rw [List.length_cons,List.length_replicate]
  exact share

private theorem Piled.takeNext (piled : Piled s (List.replicate m true) nTotal inFlight) (some' : m ≠ 0)
    (share : max 1 (min 4294967295 (UInt32.ofNat m/UInt32.ofInt ((nTotal : Int)+1+0+1))) = UInt32.ofNat k) (low : k < 2^32) :
    ∃ after, Piled after (List.replicate (m-k) true) (nTotal+1) (inFlight+k) := by
  rw [← List.drop_replicate]
  refine piled.take (mt (List.replicate_eq_nil_iff _).mp some') ?_ low
  rw [List.length_replicate]
  exact share

private theorem Piled.addNext (piled : Piled s (List.replicate m true) nTotal inFlight) (k : Nat) :
    ∃ after, Piled after (List.replicate (k+m) true) nTotal inFlight := by
  rw [← List.replicate_append_replicate]
  exact piled.add k

/-- The master comes when the batches are 2^32 checks in all. -/
private theorem Piled.wait (piled : Piled s (List.replicate m true) nTotal inFlight) (some' : m ≠ 0) (wraps : UInt32.ofNat inFlight = 0) :
    ∃ t, ReachedAny t ∧ ∃ w ∈ t.waits, w.fRet = true ∧ false ∈ w.added := by
  obtain ⟨reached,left,_,_,ok,_,todo,outside,fails⟩ := piled
  let pool : CCheckQueue Bool := {s.pool with nTotal := s.pool.nTotal+1}
  have next : s.step id .Wait = some (s.masterTurn {thread := (pool.loop true).1,pool := (pool.loop true).2}) := by
    rw [step,outside]
    rfl
  have after := Reached.step .Wait reached next trivial
  have filled : pool.queue ≠ [] := by
    show s.pool.queue ≠ []
    rw [left]
    exact mt (List.replicate_eq_nil_iff _).mp some'
  rcases loop_cases pool true with ⟨empty,_⟩ | ⟨empty,_⟩ | ⟨_,looped⟩
  · exact absurd empty filled
  · exact absurd empty filled
  · rw [looped] at after
    obtain ⟨_,fits⟩ := nNow_fits filled
    have length : pool.queue.length = m := by
      show s.pool.queue.length = m
      rw [left,List.length_replicate]
    rw [length] at fits
    have batch : Thread.working pool.nNow (pool.queue.take pool.nNow.toNat) pool.fAllOk =
        .working (UInt32.ofNat pool.nNow.toNat) (List.replicate pool.nNow.toNat true) true := by
      rw [show pool.queue = _ from left,show pool.fAllOk = true from ok,List.take_replicate,Nat.min_eq_left fits,UInt32.ofNat_toNat]
    have rest : pool.queue.drop pool.nNow.toNat = List.replicate (m-pool.nNow.toNat) true := by
      rw [show pool.queue = _ from left,List.drop_replicate]
    have count : pool.nTodo = UInt32.ofNat (m-pool.nNow.toNat+pool.nNow.toNat) := by
      show s.pool.nTodo = _
      rw [todo,List.length_replicate,UInt32.ofNat_add,wraps,UInt32.add_zero,Nat.sub_add_cancel fits]
    obtain ⟨t,there,w,member,right,same⟩ := @drains _ pool.nNow.toNat _ after batch rest ok count
    refine ⟨t,there,w,member,right,?_⟩
    rw [same]
    exact fails

end

/-- Three batches of 2^32 checks in all are at work, and one of the checks fails: the
    master sees nTodo at zero, and `Wait` returns true. -/
theorem Wait_overflows : ¬∀ s, Reached id 4294967295 (fun _ => True) s → ∀ w ∈ s.waits, w.Right id := by
  intro right
  obtain ⟨_,piled⟩ := piled_first 4294967293
  obtain ⟨_,piled⟩ := @Piled.takeFirst _ _ 2147483646 _ _ piled (by decide) (by decide)
  obtain ⟨_,piled⟩ := piled.addNext 2147483648
  obtain ⟨_,piled⟩ := @Piled.takeNext _ _ 1431655765 _ _ piled (by decide) (by decide) (by decide)
  obtain ⟨_,piled⟩ := piled.addNext 6
  obtain ⟨_,piled⟩ := @Piled.takeNext _ _ 715827884 _ _ piled (by decide) (by decide) (by decide)
  obtain ⟨t,there,w,member,returned,fails⟩ := piled.wait (by decide) (by decide)
  exact absurd ((right t there w member).result.mp returned false fails) (by decide)

end CheckSystem
end
end Tetra
