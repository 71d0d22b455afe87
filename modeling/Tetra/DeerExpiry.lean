import Mathlib
import Tetra.DeerAccounts

/-!
How long a signed request can be used again: the calls of a run whose time is accepted,
while the adjusted time goes on.
-/
namespace Tetra.Deer

/-! ### Differences of 64 bits -/

/-- A difference is exact where it is in range. -/
theorem toInt_sub_exact_iff (a b : Int64) :
    (a-b).toInt = a.toInt-b.toInt ↔ -2^63 ≤ a.toInt-b.toInt ∧ a.toInt-b.toInt < 2^63 := by
  constructor
  · intro exact'
    rw [← exact']
    exact ⟨(a-b).le_toInt,(a-b).toInt_lt⟩
  · rintro ⟨low,high⟩
    rw [Int64.toInt_sub]
    exact Int.bmod_eq_of_le_mul_two (by omega) (by omega)

/-! ### The check of the time -/

/-- The answer to a request that is too old. -/
def isLate : Except Reject CPubKey → Bool
  | .error (.plain message) => message == "deerwallet : request time should be done right now!"
  | _ => false

/-- An exception of the balances, which is not an answer of the handlers. -/
def Throws {α : Type} (result : Except Reject α) : Prop := ∀ e, result = .error e → ∃ message, e = .throws message

theorem sumOut_throws (nValueOut : Cash) (vout : List CTxOut) : Throws (CTransaction.sumOut nValueOut vout) := by
  induction vout generalizing nValueOut with
  | nil => exact fun e failed => by contradiction
  | cons txout rest ih =>
    intro e failed
    rw [CTransaction.sumOut] at failed
    split at failed
    · exact ⟨_,(Except.error.inj failed).symm⟩
    · exact ih _ e failed

section
variable {wallet : AccountWallet}

theorem sumDebit_throws (nDebit : Cash) (vin : List CTxIn) : Throws (wallet.sumDebit nDebit vin) := by
  induction vin generalizing nDebit with
  | nil => exact fun e failed => by contradiction
  | cons txin rest ih =>
    intro e failed
    rw [AccountWallet.sumDebit] at failed
    split at failed
    · exact ⟨_,(Except.error.inj failed).symm⟩
    · exact ih _ e failed

theorem GetAmounts_throws (wtx : AccountTx) : Throws (wallet.GetAmounts wtx) := by
  intro e failed
  unfold AccountWallet.GetAmounts at failed
  split at failed
  next reason debits =>
    obtain rfl := Except.error.inj failed
    unfold AccountWallet.GetDebit at debits
    split at debits
    · contradiction
    · split at debits
      · contradiction
      · exact sumDebit_throws _ _ _ debits
  · split at failed
    · split at failed
      next reason sums =>
        obtain rfl := Except.error.inj failed
        exact sumOut_throws _ _ _ sums
      · contradiction
    · contradiction

theorem traverse_throws {σ : Type} (skip : AccountTx → Bool) (visit : AccountTx → Amounts → σ → σ) (txs : List AccountTx) (s : σ) :
    Throws (wallet.traverse skip visit txs s) := by
  induction txs generalizing s with
  | nil => exact fun e failed => by contradiction
  | cons wtx rest ih =>
    intro e failed
    rw [AccountWallet.traverse] at failed
    split at failed
    · exact ih _ e failed
    · split at failed
      next reason amounts =>
        obtain rfl := Except.error.inj failed
        exact GetAmounts_throws _ _ amounts
      · exact ih _ e failed

theorem listaccounts_throws (nMinDepth : Int) : Throws (wallet.listaccounts nMinDepth) := by
  intro e failed
  unfold AccountWallet.listaccounts at failed
  split at failed
  next reason traverses =>
    obtain rfl := Except.error.inj failed
    exact traverse_throws _ _ _ _ _ traverses
  · contradiction

variable {Address : Type} {m : Arrival}

theorem checkRequest_isLate (r : KeyRequest) (registered : Bool) :
    isLate (checkRequest m wallet r registered) = decide (m.GetAdjustedTime-r.time ≥ MINTIMEMARGIN) := by
  unfold checkRequest
  by_cases late : m.GetAdjustedTime-r.time ≥ MINTIMEMARGIN
  · rw [if_pos late,decide_eq_true late]
    rfl
  · rw [if_neg late,decide_eq_false late]
    dsimp only
    split
    · rfl
    · cases lists : wallet.listaccounts 1 with
      | error e =>
        obtain ⟨message,rfl⟩ := listaccounts_throws _ _ lists
        rfl
      | ok alist =>
        cases registered with
        | true =>
          dsimp only
          rw [if_pos rfl]
          split <;> rfl
        | false =>
          dsimp only
          rw [if_neg Bool.false_ne_true]
          split <;> rfl

/-- All four handlers check the time first, and in the same way. -/
theorem checks_isLate (rules : DeerRules Address) (call : DeerCall) :
    isLate (checks rules m wallet call) = decide (m.GetAdjustedTime-call.request.time ≥ MINTIMEMARGIN) := by
  cases call with
  | CreateAccount r => exact checkRequest_isLate r false
  | GetBalance r => exact checkRequest_isLate r true
  | ListTransactions r => exact checkRequest_isLate r true
  | CreateTransaction r address circuit amount =>
    have shared := @checkRequest_isLate wallet m r true
    rw [DeerCall.request,← shared,checks]
    cases checkRequest m wallet r true with
    | error e => rfl
    | ok pbk =>
      dsimp only
      split <;> rfl

end

/-! ### Runs -/

section
variable {Address : Type}

/-- When the check of the time let the request through in a run, by whichever handler. -/
def accepted (rules : WalletRules Address) (r : KeyRequest) (wallet : AccountWallet) : List (Service × DeerCall) → List Int64
  | [] => []
  | (o,call) :: events =>
    let later := accepted rules r (act rules o wallet call).1 events
    if call.request = r ∧ isLate (checks rules.toDeerRules o.toArrival wallet call) = false then o.GetAdjustedTime :: later else later

/-- Every difference is exact, and no two times of a request are twice the margin apart. -/
structure Expires (rules : WalletRules Address) (r : KeyRequest) (wallet : AccountWallet) (events : List (Service × DeerCall)) : Prop where
  exact' : ∀ event ∈ events, event.2.request = r →
    (event.1.GetAdjustedTime-r.time).toInt = event.1.GetAdjustedTime.toInt-r.time.toInt
  close : ∀ t ∈ accepted rules r wallet events, ∀ t' ∈ accepted rules r wallet events, t'.toInt-t.toInt < 2*MINTIMEMARGIN.toInt

/-- The adjusted time does not go back. -/
def Ordered (now : Int64) (events : List (Service × DeerCall)) : Prop :=
  (now :: events.map fun event => event.1.GetAdjustedTime).Pairwise (· ≤ ·)

variable {rules : WalletRules Address} {r : KeyRequest} {wallet : AccountWallet} {now : Int64} {events : List (Service × DeerCall)}

theorem mem_accepted {t : Int64} (listed : t ∈ accepted rules r wallet events) :
    ∃ event ∈ events, event.2.request = r ∧ event.1.GetAdjustedTime = t ∧ ¬ t-r.time ≥ MINTIMEMARGIN := by
  induction events generalizing wallet with
  | nil => contradiction
  | cons event events ih =>
    obtain ⟨o,call⟩ := event
    have later : t ∈ accepted rules r (act rules o wallet call).1 events → ∃ event ∈ (o,call) :: events, event.2.request = r ∧
        event.1.GetAdjustedTime = t ∧ ¬ t-r.time ≥ MINTIMEMARGIN := by
      intro listed
      obtain ⟨event,member,found⟩ := ih listed
      exact ⟨event,List.mem_cons_of_mem _ member,found⟩
    rw [accepted] at listed
    split at listed
    next passes =>
      obtain ⟨rfl,inTime⟩ := passes
      rcases List.mem_cons.mp listed with rfl | rest
      · rw [checks_isLate] at inTime
        exact ⟨(o,call),List.mem_cons_self ..,rfl,rfl,of_decide_eq_false inTime⟩
      · exact later rest
    · exact later listed

/-- What a step must find: the request is not stamped far in the future, nor so long ago
    that the difference leaves the range. -/
def InRange (r : KeyRequest) (time : Int64) : Prop :=
  r.time.toInt ≤ time.toInt+MINTIMEMARGIN.toInt ∧ time.toInt-r.time.toInt < 2^63

theorem margin_toInt : MINTIMEMARGIN.toInt = 86400 := by decide

theorem InRange.exact {time : Int64} (inRange : InRange r time) : (time-r.time).toInt = time.toInt-r.time.toInt := by
  rw [InRange,margin_toInt] at inRange
  rw [toInt_sub_exact_iff]
  omega

/-- What is accepted within the range is at most a margin away from the request's time. -/
theorem InRange.accepts {time : Int64} (inRange : InRange r time) (inTime : ¬ time-r.time ≥ MINTIMEMARGIN) :
    r.time.toInt-86400 ≤ time.toInt ∧ time.toInt < r.time.toInt+86400 := by
  have difference := inRange.exact
  rw [ge_iff_le,Int64.le_iff_toInt_le,margin_toInt,difference] at inTime
  rw [InRange,margin_toInt] at inRange
  omega

/-- A run whose steps are all in range. -/
theorem expires_of_inRange (inRange : ∀ event ∈ events, event.2.request = r → InRange r event.1.GetAdjustedTime) :
    Expires rules r wallet events := by
  refine ⟨fun event member asks => (inRange event member asks).exact,fun t listed t' listed' => ?_⟩
  obtain ⟨event,member,asks,rfl,inTime⟩ := mem_accepted listed
  obtain ⟨event',member',asks',rfl,inTime'⟩ := mem_accepted listed'
  have first := (inRange event member asks).accepts inTime
  have second := (inRange event' member' asks').accepts inTime'
  rw [margin_toInt]
  omega

theorem Ordered.after (ordered : Ordered now events) {event : Service × DeerCall} (member : event ∈ events) :
    now.toInt ≤ event.1.GetAdjustedTime.toInt :=
  Int64.le_iff_toInt_le.mp ((List.pairwise_cons.mp ordered).1 _ (List.mem_map_of_mem member))

/-- The request comes at two times, through the handler that changes nothing. -/
def replays (r : KeyRequest) (first second : Int64) : List (Service × DeerCall) :=
  [({GetAdjustedTime := first,GetBalance := {},newKey := none},.GetBalance r),
    ({GetAdjustedTime := second,GetBalance := {},newKey := none},.GetBalance r)]

theorem replays_ordered {first second : Int64} (begins : now ≤ first) (later : first ≤ second) : Ordered now (replays r first second) := by
  have through : now ≤ second := Int64.le_trans begins later
  simp [Ordered,replays,begins,later,through]

theorem accepted_replays {first second : Int64} (inTime : ¬ first-r.time ≥ MINTIMEMARGIN) (inTime' : ¬ second-r.time ≥ MINTIMEMARGIN) :
    accepted rules r wallet (replays r first second) = [first,second] := by
  have passes : ∀ (m : Arrival) (wallet : AccountWallet), ¬ m.GetAdjustedTime-r.time ≥ MINTIMEMARGIN →
      isLate (checks rules.toDeerRules m wallet (.GetBalance r)) = false := by
    intro m wallet early
    rw [checks_isLate]
    exact decide_eq_false early
  unfold replays
  rw [accepted,accepted,accepted]
  dsimp only
  rw [if_pos ⟨rfl,passes _ _ inTime⟩,if_pos ⟨rfl,passes _ _ inTime'⟩]

/-- The last moment of the clock. -/
def endOfTime : Int64 := Int64.maxValue

theorem nonneg_of_expires (expires : Expires rules r wallet (replays r endOfTime endOfTime)) : 0 ≤ r.time.toInt := by
  have difference := (toInt_sub_exact_iff ..).mp (expires.exact' _ (List.mem_cons_self ..) rfl)
  have last : endOfTime.toInt = 2^63-1 := by decide
  have exact' := difference.2
  simp only [last] at exact'
  omega

/-- A request from the far future is accepted now and twice the margin later. -/
theorem near_of_expires {later : Int64} (margin : later.toInt = now.toInt+2*86400)
    (expires : Expires rules r wallet (replays r now later)) : r.time.toInt ≤ now.toInt+86400 := by
  by_contra far
  have first := expires.exact' _ (List.mem_cons_self ..) rfl
  have second := expires.exact' _ (List.mem_cons_of_mem _ (List.mem_cons_self ..)) rfl
  dsimp only at first second
  have inTime : ¬ now-r.time ≥ MINTIMEMARGIN := by
    rw [ge_iff_le,Int64.le_iff_toInt_le,margin_toInt,first]
    omega
  have inTime' : ¬ later-r.time ≥ MINTIMEMARGIN := by
    rw [ge_iff_le,Int64.le_iff_toInt_le,margin_toInt,second]
    omega
  have apart := expires.close
  rw [accepted_replays inTime inTime'] at apart
  have close := apart now (List.mem_cons_self ..) later (List.mem_cons_of_mem _ (List.mem_cons_self ..))
  rw [margin_toInt] at close
  omega

/-- A request expires in every run from some moment on just when its time is not negative
    and at most the margin ahead, or the clock ends before. -/
theorem requests_expire_iff (rules : WalletRules Address) (r : KeyRequest) (wallet : AccountWallet) (now : Int64) :
    (∀ events, Ordered now events → Expires rules r wallet events) ↔
      0 ≤ r.time.toInt ∧ (r.time.toInt ≤ now.toInt+MINTIMEMARGIN.toInt ∨ 2^63 ≤ now.toInt+2*MINTIMEMARGIN.toInt) := by
  rw [margin_toInt]
  constructor
  · intro expires
    have limit : now ≤ endOfTime := Int64.le_maxValue now
    refine ⟨nonneg_of_expires (expires _ (replays_ordered limit (Int64.le_refl _))),?_⟩
    by_cases ends : 2^63 ≤ now.toInt+2*86400
    · exact .inr ends
    · left
      have low := now.le_toInt
      have margin : (Int64.ofInt (now.toInt+2*86400)).toInt = now.toInt+2*86400 := Int64.toInt_ofInt_of_le (by omega) (by omega)
      have later : now ≤ Int64.ofInt (now.toInt+2*86400) := by
        rw [Int64.le_iff_toInt_le,margin]
        omega
      exact near_of_expires margin (expires _ (replays_ordered (Int64.le_refl _) later))
  · rintro ⟨nonneg,near | ends⟩ events ordered
    · refine expires_of_inRange fun event member _ => ?_
      have on := ordered.after member
      have low := event.1.GetAdjustedTime.toInt_lt
      rw [InRange,margin_toInt]
      omega
    · -- All times of the run are within the last two margins of the clock.
      have last : ∀ t : Int64, t.toInt < 2^63 := Int64.toInt_lt
      refine ⟨fun event member _ => ?_,fun t listed t' listed' => ?_⟩
      · have on := ordered.after member
        have high := last event.1.GetAdjustedTime
        have high' := last r.time
        rw [toInt_sub_exact_iff]
        omega
      · obtain ⟨event,member,-,rfl,-⟩ := mem_accepted listed
        have on := ordered.after member
        have high := last t'
        rw [margin_toInt]
        omega

end

private def futureRequest : KeyRequest := ⟨[],4000000000,[],[]⟩

/-- A request stamped decades ahead is accepted on days that are two days apart. -/
theorem future_request_replayed :
    accepted shopRules futureRequest reserveWallet (replays futureRequest 1400000000 1400172800) = [1400000000,1400172800] ∧
    ¬ Expires shopRules futureRequest reserveWallet (replays futureRequest 1400000000 1400172800) := by
  have twice := @accepted_replays Nat shopRules futureRequest reserveWallet 1400000000 1400172800 (by decide) (by decide)
  refine ⟨twice,fun expires => ?_⟩
  have close := expires.close
  rw [twice] at close
  exact absurd (close 1400000000 (List.mem_cons_self ..) 1400172800 (List.mem_cons_of_mem _ (List.mem_cons_self ..))) (by decide)

end Tetra.Deer
