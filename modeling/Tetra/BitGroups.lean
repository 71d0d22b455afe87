import Tetra.Positional

/-!
Digits of `b` bits into digits of `c` bits, by a machine that keeps the bits that no digit has
taken yet. What comes out is told by the number of the bits and by their value, so that two
such machines undo each other.
-/
namespace Tetra.BitGroups
open Positional

theorem value_append (B : Nat) (xs ys : List Nat) : value B (xs ++ ys) = value B xs*B^ys.length+value B ys := by
  rw [value,List.reverse_append,Nat.ofDigits_append,List.length_reverse,Nat.mul_comm,Nat.add_comm]
  rfl

@[simp] theorem value_singleton (B d : Nat) : value B [d] = d := Nat.ofDigits_singleton

theorem value_cons (B d : Nat) (ds : List Nat) : value B (d :: ds) = d*B^ds.length+value B ds := by
  have split := value_append B [d] ds
  rwa [List.singleton_append,value_singleton] at split

@[simp] theorem value_pair (B d e : Nat) : value B [d,e] = d*B+e := by
  rw [value_cons,List.length_singleton,Nat.pow_one,value_singleton]

/-- Digits of one length are told by their value. -/
theorem eq_of_value {B : Nat} (base : 1 < B) {xs ys : List Nat} (length : xs.length = ys.length) (left : ∀ d ∈ xs, d < B) (right : ∀ d ∈ ys, d < B)
    (same : value B xs = value B ys) : xs = ys := by
  apply List.reverse_inj.mp
  apply Nat.ofDigits_inj_of_len_eq base
  · rw [List.length_reverse,List.length_reverse,length]
  · exact fun d member => left d (List.mem_reverse.mp member)
  · exact fun d member => right d (List.mem_reverse.mp member)
  · exact same

/-- The digits of so many bits, and the bits after them, are told by the number and the value. -/
theorem eq_of_bits {c m n r t : Nat} (some : 0 < c) {xs ys : List Nat} (left : ∀ d ∈ xs, d < 2^c) (right : ∀ d ∈ ys, d < 2^c)
    (few : m < c) (few' : n < c) (amount : c*xs.length+m = c*ys.length+n) (low : r < 2^m) (low' : t < 2^n)
    (same : value (2^c) xs*2^m+r = value (2^c) ys*2^n+t) : xs = ys ∧ m = n ∧ r = t := by
  have rest := congrArg (· % c) amount
  simp only [Nat.mul_add_mod,Nat.mod_eq_of_lt few,Nat.mod_eq_of_lt few'] at rest
  subst rest
  have length : xs.length = ys.length := Nat.eq_of_mul_eq_mul_left some (by omega)
  have remainders := congrArg (· % 2^m) same
  simp only [Nat.mul_add_mod_of_lt low,Nat.mul_add_mod_of_lt low'] at remainders
  subst remainders
  have values : value (2^c) xs = value (2^c) ys := Nat.eq_of_mul_eq_mul_right (Nat.two_pow_pos m) (by omega)
  exact ⟨eq_of_value (Nat.one_lt_two_pow (by omega)) length left right values,rfl,rfl⟩

/-- One digit comes in, and what comes out and is left are the bits there are. -/
def Moved {σ : Type*} (b c : Nat) (Valid : σ → Prop) (bits rest : σ → Nat) (s : σ) (d : Nat) (result : List Nat × σ) : Prop :=
  Valid result.2 ∧ (∀ e ∈ result.1, e < 2^c) ∧ bits s+b = c*result.1.length+bits result.2 ∧
    rest s*2^b+d = value (2^c) result.1*2^bits result.2+rest result.2

/-- A machine and the bits it has left in a state, of which there are `bits`. -/
structure Regrouper (b c : Nat) where
  State : Type
  start : State
  step : State → Nat → List Nat × State
  Valid : State → Prop
  bits : State → Nat
  rest : State → Nat
  start_valid : Valid start
  start_bits : bits start = 0
  few : ∀ {s}, Valid s → bits s < c
  small : ∀ {s}, Valid s → rest s < 2^bits s
  moves : ∀ {s d}, Valid s → d < 2^b → Moved b c Valid bits rest s d (step s d)

/-- Takes one digit after the other. -/
def run {σ : Type*} (step : σ → Nat → List Nat × σ) : σ → List Nat → List Nat × σ
  | s, [] => ([],s)
  | s, d :: ds => ((step s d).1 ++ (run step (step s d).2 ds).1,(run step (step s d).2 ds).2)

namespace Regrouper

variable {b c : Nat} (machine : Regrouper b c)

/-- What a run has written and what it has left are the bits it was given. -/
structure Ran (s : machine.State) (ds : List Nat) (result : List Nat × machine.State) : Prop where
  valid : machine.Valid result.2
  digits : ∀ e ∈ result.1, e < 2^c
  amount : machine.bits s+b*ds.length = c*result.1.length+machine.bits result.2
  exact : machine.rest s*2^(b*ds.length)+value (2^b) ds = value (2^c) result.1*2^machine.bits result.2+machine.rest result.2

theorem run_spec {s : machine.State} (valid : machine.Valid s) {ds : List Nat} (small : ∀ d ∈ ds, d < 2^b) : machine.Ran s ds (run machine.step s ds) := by
  induction ds generalizing s with
  | nil => exact ⟨valid,by simp [run],by simp [run],by simp [run]⟩
  | cons d ds ih =>
    have low := small d List.mem_cons_self
    obtain ⟨next,digits,amount,exact⟩ := machine.moves valid low
    have later := ih next fun d member => small d (List.mem_cons_of_mem _ member)
    have whole := later.amount
    refine ⟨later.valid,fun e member => ?_,?_,?_⟩
    · rcases List.mem_append.mp member with first | rest
      · exact digits e first
      · exact later.digits e rest
    · rw [run]
      dsimp only
      rw [List.length_cons,List.length_append,Nat.mul_add,Nat.mul_add,Nat.mul_one]
      omega
    · rw [run,value_append,value_cons,← Nat.pow_mul,← Nat.pow_mul]
      calc machine.rest s*2^(b*(d :: ds).length)+(d*2^(b*ds.length)+value (2^b) ds)
          = (machine.rest s*2^b+d)*2^(b*ds.length)+value (2^b) ds := by
            rw [List.length_cons,Nat.mul_add,Nat.mul_one,Nat.pow_add]
            ring
        _ = value (2^c) (machine.step s d).1*2^(machine.bits (machine.step s d).2+b*ds.length)+
              (machine.rest (machine.step s d).2*2^(b*ds.length)+value (2^b) ds) := by
            rw [exact,Nat.pow_add]
            ring
        _ = _ := by
            rw [whole,later.exact,Nat.pow_add]
            ring

theorem run_start {ds : List Nat} (small : ∀ d ∈ ds, d < 2^b) :
    b*ds.length = c*(run machine.step machine.start ds).1.length+machine.bits (run machine.step machine.start ds).2 ∧
      value (2^b) ds = value (2^c) (run machine.step machine.start ds).1*2^machine.bits (run machine.step machine.start ds).2+
        machine.rest (run machine.step machine.start ds).2 := by
  have ran := machine.run_spec machine.start_valid small
  have none : machine.rest machine.start = 0 := by
    have small := machine.small machine.start_valid
    rw [machine.start_bits] at small
    omega
  have amount := ran.amount
  have exact := ran.exact
  rw [machine.start_bits,Nat.zero_add] at amount
  rw [none,Nat.zero_mul,Nat.zero_add] at exact
  exact ⟨amount,exact⟩

/-- The digits with a last one for the bits that are left, in front of zeros. -/
def closed (result : List Nat × machine.State) : List Nat :=
  if machine.bits result.2 = 0 then result.1 else result.1 ++ [machine.rest result.2*2^(c-machine.bits result.2)]

def complete (ds : List Nat) : List Nat := machine.closed (run machine.step machine.start ds)

/-- The bits are those that were given and fewer zeros than fill a digit. -/
theorem complete_spec {ds : List Nat} (small : ∀ d ∈ ds, d < 2^b) :
    (∀ e ∈ machine.complete ds, e < 2^c) ∧ ∃ k < c, c*(machine.complete ds).length = b*ds.length+k ∧ value (2^c) (machine.complete ds) = value (2^b) ds*2^k := by
  have ran := machine.run_spec machine.start_valid small
  obtain ⟨amount,exact⟩ := machine.run_start small
  have few := machine.few ran.valid
  have low := machine.small ran.valid
  unfold complete closed
  split
  next none =>
    rw [none,Nat.pow_zero] at low
    rw [none] at amount exact
    refine ⟨ran.digits,0,by omega,by omega,?_⟩
    omega
  next some =>
    have pad : 2^c = 2^machine.bits (run machine.step machine.start ds).2*2^(c-machine.bits (run machine.step machine.start ds).2) := by
      rw [← Nat.pow_add]
      congr 1
      omega
    refine ⟨fun e member => ?_,c-machine.bits (run machine.step machine.start ds).2,by omega,?_,?_⟩
    · rcases List.mem_append.mp member with front | last
      · exact ran.digits e front
      · rw [List.mem_singleton.mp last,pad]
        exact Nat.mul_lt_mul_of_pos_right low (Nat.two_pow_pos _)
    · rw [List.length_append,List.length_singleton,Nat.mul_add]
      omega
    · rw [value_concat,exact,Nat.add_mul,Nat.mul_assoc,← pad]

variable (back : Regrouper c b)

/-- What was completed is taken apart again, with zeros left. -/
theorem run_complete (narrow : c ≤ b) {ds : List Nat} (small : ∀ d ∈ ds, d < 2^b) :
    (run back.step back.start (machine.complete ds)).1 = ds ∧ back.rest (run back.step back.start (machine.complete ds)).2 = 0 ∧
      back.bits (run back.step back.start (machine.complete ds)).2 < c := by
  obtain ⟨digits,k,less,amount,exact⟩ := machine.complete_spec small
  have ran := back.run_spec back.start_valid digits
  obtain ⟨amount',exact'⟩ := back.run_start digits
  have same := eq_of_bits (by omega) ran.digits small (back.few ran.valid) (show k < b by omega) (by omega) (back.small ran.valid) (Nat.two_pow_pos k)
    (by rw [← exact',exact,Nat.add_zero])
  exact ⟨same.1,same.2.2,by rw [same.2.1]; exact less⟩

/-- What was taken apart with zeros left, fewer than fill a digit, is completed to the same. -/
theorem complete_run (some : 0 < c) {ds : List Nat} (small : ∀ d ∈ ds, d < 2^c)
    (zeros : back.rest (run back.step back.start ds).2 = 0) (less : back.bits (run back.step back.start ds).2 < c) :
    machine.complete (run back.step back.start ds).1 = ds := by
  have ran := back.run_spec back.start_valid small
  obtain ⟨amount,exact⟩ := back.run_start small
  obtain ⟨digits,k,less',amount',exact'⟩ := machine.complete_spec ran.digits
  have same := eq_of_bits some digits small less less' (by omega) (Nat.two_pow_pos _) (Nat.two_pow_pos k)
    (by rw [exact',exact,zeros]; ring)
  exact same.1

end Regrouper

end Tetra.BitGroups
