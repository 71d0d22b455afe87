import Mathlib
import Tetra.Sufficiency

/-!
Sending what is queued. `ProxySendMany` takes the entries from the front, and only
reports that the funds are short, that no transaction could be made or that it was not
accepted: the entry is committed all the same and then dropped. An exception leaves the
entry at the front, where it stops the next call too.
-/
namespace Tetra
open Std

/-- The wallet behind the queue: what it answers in a state, and the outcomes of making and
    committing a transaction. A transaction that could not be made is still there. -/
structure Backend (Address State : Type) extends Addresses Address where
  IsLocked : State → Bool
  GetAccountBalance : State → Text → Int → Cash
  CreateTransaction : State → Text → List (CScript × Cash) → Bool × CTransaction × State
  CommitTransaction : State → CTransaction → Bool × State

/-- An entry that was taken from the queue: what its account had, the transaction, and
    whether it was committed. -/
structure Attempt where
  entry : DummyParams
  nBalance : Cash
  wtx : CTransaction
  committed : Bool

/-- What one call leaves: the entries it took, the queue, and the exception that ended it. -/
structure ProxyResult (State : Type) where
  attempts : List Attempt
  plist : ParamList
  state : State
  thrown : Option RpcError

section
variable {Address State : Type} [DecidableEq Address]

/-- What can throw before a payment is made: the account, the addresses and amounts, a locked wallet. -/
def Backend.prepare (backend : Backend Address State) (state : State) (p : DummyParams) : Except RpcError (Totals Address) := do
  let _ ← AccountFromValue p.ToArray.1
  let totals ← TotalAmountFromObject backend.toAddresses {} p.ToArray.2
  EnsureWalletIsUnlocked (backend.IsLocked state)
  .ok totals

/-- The body of the loop, for the entry at the front. -/
def Backend.send (backend : Backend Address State) (state : State) (p : DummyParams) : Except RpcError (Attempt × State) := do
  let totals ← backend.prepare state p
  let created := backend.CreateTransaction state p.Account totals.vecSend
  let done := backend.CommitTransaction created.2.2 created.2.1
  .ok (⟨p,backend.GetAccountBalance state p.Account 1,created.2.1,done.1⟩,done.2)

def Backend.ProxySendMany (backend : Backend Address State) (state : State) : ParamList → ProxyResult State
  | [] => ⟨[],[],state,none⟩
  | p :: rest =>
    match backend.send state p with
    | .error error => ⟨[],p :: rest,state,some error⟩
    | .ok (attempt,state') =>
      let later := backend.ProxySendMany state' rest
      {later with attempts := attempt :: later.attempts}

end

/-- The outputs are those for the targets, in order, with at most one more: the change. -/
def PaysExactly (vout targets : List CTxOut) : Prop :=
  vout = targets ∨ ∃ before change after, vout = before ++ change :: after ∧ targets = before ++ after

/-- The outputs that an entry asks for. -/
def DummyParams.outputs {Address : Type} (addresses : Addresses Address) (p : DummyParams) : List (Option CTxOut) :=
  p.Target.toList.map fun t => (addresses.decode t.1).map fun address => ⟨t.2,addresses.SetDestination address⟩

/-- What an entry asks for in a circuit. -/
def DummyParams.asked (p : DummyParams) (c : CashName) : Int := Maps.total (fun x => Cash.exactly x c) p.Target

/-- Committed in a transaction that pays the targets, from an account that has them. -/
structure Attempt.Paid {Address : Type} (addresses : Addresses Address) (attempt : Attempt) : Prop where
  committed : attempt.committed = true
  pays : ∃ targets, attempt.entry.outputs addresses = targets.map some ∧ PaysExactly attempt.wtx.vout targets

section
variable {Address State : Type} [DecidableEq Address]

/-- An entry that could be paid in this state. -/
def Backend.Payable (backend : Backend Address State) (state : State) (p : DummyParams) : Prop :=
  ∃ attempt state', backend.send state p = .ok (attempt,state') ∧ attempt.Paid backend.toAddresses ∧
    Covered p.asked attempt.nBalance

variable {backend : Backend Address State}

theorem send_ok {state : State} {p : DummyParams} {totals : Totals Address} (prepared : backend.prepare state p = .ok totals) :
    let created := backend.CreateTransaction state p.Account totals.vecSend
    let done := backend.CommitTransaction created.2.2 created.2.1
    backend.send state p = .ok (⟨p,backend.GetAccountBalance state p.Account 1,created.2.1,done.1⟩,done.2) := by
  simp [Backend.send,prepared,bind,Except.bind]

theorem send_error {state : State} {p : DummyParams} {error : RpcError} (thrown : backend.prepare state p = .error error) :
    backend.send state p = .error error := by
  simp [Backend.send,thrown,bind,Except.bind]

omit [DecidableEq Address] in
private theorem outputs_of_survive (addresses : Addresses Address) (entries : List (Text × Cash)) (destinations : List Address)
    (names : entries.map (fun t => addresses.decode t.1) = destinations.map some)
    (survive : ∀ t ∈ entries, Cash.ofJson t.2.ToJSON = t.2) :
    entries.map (fun t => (addresses.decode t.1).map fun address => (⟨t.2,addresses.SetDestination address⟩ : CTxOut)) =
      (((destinations.map addresses.SetDestination).zip (entries.map fun t => Cash.ofJson t.2.ToJSON)).map
        fun s => (⟨s.2,s.1⟩ : CTxOut)).map some := by
  induction entries generalizing destinations with
  | nil => simp
  | cons t rest ih =>
    cases destinations with
    | nil => simp at names
    | cons destination destinations =>
      obtain ⟨first,others⟩ : addresses.decode t.1 = some destination ∧
          rest.map (fun t => addresses.decode t.1) = destinations.map some := by simpa using names
      have later := ih destinations others fun t' member => survive t' (List.mem_cons_of_mem _ member)
      simp only [List.map_cons,List.zip_cons_cons,first,Option.map_some,survive t (List.mem_cons_self ..),later]

/-- What the transaction is asked to pay: the targets, as far as the amounts come back
    from JSON as they were. -/
theorem prepare_vecSend {state : State} {p : DummyParams} {totals : Totals Address} (prepared : backend.prepare state p = .ok totals)
    (survive : ∀ t ∈ p.Target.toList, Cash.ofJson t.2.ToJSON = t.2) :
    p.outputs backend.toAddresses = (totals.vecSend.map fun s => (⟨s.2,s.1⟩ : CTxOut)).map some := by
  simp only [Backend.prepare,bind,Except.bind] at prepared
  cases name : AccountFromValue p.ToArray.1 with
  | error error => simp [name] at prepared
  | ok strAccount =>
    cases read : TotalAmountFromObject backend.toAddresses {} p.ToArray.2 with
    | error error => simp [name,read] at prepared
    | ok result =>
      cases locked : EnsureWalletIsUnlocked (backend.IsLocked state) with
      | error error => simp [name,read,locked] at prepared
      | ok _ =>
        obtain rfl : result = totals := by simpa [name,read,locked] using prepared
        obtain ⟨destinations,names,sends⟩ := (TotalAmountFromObject_ok read).vecSend
        simp only [DummyParams.ToArray,List.map_map] at names sends
        rw [sends,DummyParams.outputs,List.nil_append]
        exact outputs_of_survive backend.toAddresses _ destinations names survive

/-- The entries that are taken and those that stay are the queue. -/
theorem ProxySendMany_kept (state : State) (plist : ParamList) :
    plist = (backend.ProxySendMany state plist).attempts.map Attempt.entry ++ (backend.ProxySendMany state plist).plist := by
  induction plist generalizing state with
  | nil => rfl
  | cons p rest ih =>
    rw [Backend.ProxySendMany]
    cases prepared : backend.prepare state p with
    | error error => rw [send_error prepared]; rfl
    | ok totals =>
      rw [send_ok prepared]
      simp only [List.map_cons,List.cons_append]
      congr 1
      exact ih _

end

/-- A wallet that cannot make the transaction, say because it would be too large. -/
private def stuck : Backend Bool Unit where
  decode := fun name => if name = [1] then some true else none
  SetDestination := fun _ => [1]
  IsLocked := fun _ => false
  GetAccountBalance := fun _ account _ => if account = [97] then Cash.ofMoney ([65],500) else {}
  CreateTransaction := fun state _ _ => (false,⟨1,[],[],0,[]⟩,state)
  CommitTransaction := fun state _ => (false,state)

private def waiting : ParamList := [DummyParams.ofParams [97] [([1],[([65],5)])]]

/-- A sum of 29 hundredths comes back from JSON as 28. -/
example : Cash.ofJson (Cash.ofMoney ([65],29)).ToJSON = Cash.ofMoney ([65],28) := by decide +kernel

end Tetra
