import Mathlib

/-!
Stacks of write-back caches over a store. Every cache answers from its own entries
or else from the view below it, copies what it reads, and hands its entries down when
it is flushed; some values count as no value. One map for each member says what the
stack answers, and each operation changes these maps as a write to plain maps would.
-/
namespace Tetra.Overlay
open Std
set_option linter.unusedSectionVars false

/-- One cache: the entries written to it or copied into it, and the tip likewise. -/
structure Layer (κ α τ : Type) (cmp : κ → κ → Ordering) where
  entries : ExtTreeMap κ α cmp := ∅
  tip : Option τ := none

/-- The view below all caches. A write may fail, and then it changes nothing; the flag
    says whether the disk takes it. -/
structure Store (κ α τ : Type) (cmp : κ → κ → Ordering) where
  State : Type
  get : State → κ → Option α
  tip : State → Option τ
  /-- Whether a write without a tip leaves the tip as it is. -/
  guarded : Bool
  write : Bool → State → ExtTreeMap κ α cmp → Option τ → Option State

inductive Op (κ α τ : Type)
  | read (k : κ)
  | has (k : κ)
  | write (k : κ) (v : α)
  | modify (k : κ) (f : α → α)
  | readTip
  | setTip (t : Option τ)
  | flush (works : Bool)

inductive Answer (α τ : Type)
  | value (v : Option α)
  | present (b : Bool)
  | wrote (v : α)
  | tip (t : Option τ)
  | done (ok : Bool)
deriving DecidableEq

variable {κ α τ : Type} {cmp : κ → κ → Ordering} [TransCmp cmp] [LawfulEqCmp cmp]

/-- What a member answers, copies or not. -/
def view (g : κ → Option α) : List (Layer κ α τ cmp) → κ → Option α
  | [], k => g k
  | l :: below, k => l.entries[k]?.or (view g below k)

/-- Reading leaves a copy in every cache that is asked. -/
def fetch (g : κ → Option α) (k : κ) : List (Layer κ α τ cmp) → Option α × List (Layer κ α τ cmp)
  | [] => (g k,[])
  | l :: below =>
    match l.entries[k]? with
    | some v => (some v,l :: below)
    | none =>
      let (v,below) := fetch g k below
      (v,(match v with | some v => {l with entries := l.entries.insert k v} | none => l) :: below)

/-- Asking for the tip leaves a copy of it. -/
def fetchTip (t : Option τ) : List (Layer κ α τ cmp) → Option τ × List (Layer κ α τ cmp)
  | [] => (t,[])
  | l :: below =>
    match l.tip with
    | some t => (some t,l :: below)
    | none =>
      let (t,below) := fetchTip t below
      (t,{l with tip := t} :: below)

/-- An operation on the topmost member; none if an assertion fails or there is no cache. -/
def act (store : Store κ α τ cmp) (op : Op κ α τ) :
    List (Layer κ α τ cmp) → store.State → Option (Answer α τ × List (Layer κ α τ cmp) × store.State)
  | [], _ => none
  | l :: below, s =>
    match op with
    | .read k =>
      let (v,layers) := fetch (store.get s) k (l :: below)
      some (.value v,layers,s)
    | .has k =>
      let (v,layers) := fetch (store.get s) k (l :: below)
      some (.present v.isSome,layers,s)
    | .write k v => some (.done true,{l with entries := l.entries.insert k v} :: below,s)
    | .modify k f =>
      match fetch (store.get s) k (l :: below) with
      | (some v,l :: below) => some (.wrote (f v),{l with entries := l.entries.insert k (f v)} :: below,s)
      | _ => none
    | .readTip =>
      let (t,layers) := fetchTip (store.tip s) (l :: below)
      some (.tip t,layers,s)
    | .setTip t => some (.done true,{l with tip := t} :: below,s)
    | .flush works =>
      match below with
      | m :: below =>
        some (.done true,{l with entries := ∅} :: {m with entries := m.entries ∪ l.entries, tip := l.tip} :: below,s)
      | [] =>
        match store.write works s l.entries l.tip with
        | some s => some (.done true,[{l with entries := ∅}],s)
        | none => some (.done false,[l],s)

/-- The same on the member with `i` caches above it. -/
def step (store : Store κ α τ cmp) (op : Op κ α τ) :
    Nat → List (Layer κ α τ cmp) → store.State → Option (Answer α τ × List (Layer κ α τ cmp) × store.State)
  | 0, layers, s => act store op layers s
  | _+1, [], _ => none
  | i+1, l :: below, s =>
    match step store op i below s with
    | some (answer,below,s) => some (answer,l :: below,s)
    | none => none

/-- Operations on any members, one after another, with the answer of each. -/
def run (store : Store κ α τ cmp) : List (Nat × Op κ α τ) → List (Layer κ α τ cmp) → store.State →
    Option (List (Answer α τ) × List (Layer κ α τ cmp) × store.State)
  | [], layers, s => some ([],layers,s)
  | (i,op) :: ops, layers, s =>
    match step store op i layers s with
    | none => none
    | some (answer,layers,s) =>
      match run store ops layers s with
      | none => none
      | some (answers,layers,s) => some (answer :: answers,layers,s)

/-- A store gives back what was written to it, as far as it keeps such values and they
    count as values, and never anything that it does not keep. -/
structure Store.Lawful (store : Store κ α τ cmp) (live : α → Bool) (keeps : α → Prop) : Prop where
  write_get : ∀ works s entries t s', store.write works s entries t = some s' → (∀ (k : κ) v, entries[k]? = some v → keeps v) →
    ∀ k : κ, (store.get s' k).filter live = (entries[k]?.or (store.get s k)).filter live
  write_tip : ∀ works s entries t s', store.write works s entries t = some s' → t ≠ none ∨ store.guarded = true →
    store.tip s' = t.or (store.tip s)
  get_keeps : ∀ s k v, store.get s k = some v → keeps v

/-- A view without the values that count as none. -/
def seen (live : α → Bool) (g : κ → Option α) (k : κ) : Option α := (g k).filter live

/-- The maps that stand for the members, from the top down to the store. -/
def answers (live : α → Bool) (g : κ → Option α) : List (Layer κ α τ cmp) → List (κ → Option α)
  | [] => [seen live g]
  | l :: below => seen live (view g (l :: below)) :: answers live g below

def tipOf (t : Option τ) : List (Layer κ α τ cmp) → Option τ
  | [] => t
  | l :: below => l.tip.or (tipOf t below)

def tips (t : Option τ) : List (Layer κ α τ cmp) → List (Option τ)
  | [] => [t]
  | l :: below => tipOf t (l :: below) :: tips t below

/-- A write to a plain map. -/
def put (cmp : κ → κ → Ordering) (k : κ) (v : Option α) (m : κ → Option α) (k' : κ) : Option α := if cmp k k' = .eq then v else m k'

/-- The member `i` and all above it change. -/
def upTo {β : Type*} (change : β → β) : Nat → List β → List β
  | _, [] => []
  | 0, m :: ms => change m :: ms
  | i+1, m :: ms => change m :: upTo change i ms

/-- No cache above the member `i` has an entry for `k`. -/
def Free (k : κ) : Nat → List (Layer κ α τ cmp) → Prop
  | i+1, l :: below => l.entries[k]? = none ∧ Free k i below
  | _, _ => True

/-- No cache above the member `i` has a tip. -/
def FreeTip : Nat → List (Layer κ α τ cmp) → Prop
  | i+1, l :: below => l.tip = none ∧ FreeTip i below
  | _, _ => True

/-- The member `i` has a tip to hand down, or the view below it has none to lose. -/
def TipKnown (guarded : Bool) : Nat → List (Layer κ α τ cmp) → Prop
  | 0, [l] => l.tip ≠ none ∨ guarded = true
  | 0, l :: m :: _ => l.tip ≠ none ∨ m.tip = none
  | i+1, _ :: below => TipKnown guarded i below
  | _, _ => True

/-- Writes reach all that stands above them, and write what the store keeps. -/
def Reaches (keeps : α → Prop) (i : Nat) (op : Op κ α τ) (answer : Answer α τ) (layers : List (Layer κ α τ cmp)) : Prop :=
  match op, answer with
  | .write k v, _ => Free k i layers ∧ keeps v
  | .modify k _, .wrote v => Free k i layers ∧ keeps v
  | _, _ => True

def ReachesTip (guarded : Bool) (i : Nat) (op : Op κ α τ) (layers : List (Layer κ α τ cmp)) : Prop :=
  match op with
  | .setTip t => FreeTip i layers ∧ t ≠ none
  | .flush _ => TipKnown guarded i layers
  | _ => True

/-- The answer that the map of the member `i` gives. Having a value is not to be one
    that counts. -/
def Fits (live : α → Bool) (i : Nat) (op : Op κ α τ) (answer : Answer α τ) (maps : List (κ → Option α)) : Prop :=
  match op, answer with
  | .read k, .value v => maps[i]?.map (fun m => m k) = some (v.filter live)
  | .has k, .present b => b = false → maps[i]?.map (fun m => m k) = some none
  | .modify k f, .wrote v => ∃ old, v = f old ∧ maps[i]?.map (fun m => m k) = some ((some old).filter live)
  | _, _ => True

/-- Every entry is one that the store keeps. -/
def Kept (keeps : α → Prop) (layers : List (Layer κ α τ cmp)) : Prop :=
  ∀ l ∈ layers, ∀ (k : κ) v, l.entries[k]? = some v → keeps v

/-- A run is its first step and the run after it. -/
theorem run_cons {store : Store κ α τ cmp} {i : Nat} {op : Op κ α τ} {ops : List (Nat × Op κ α τ)} {layers layers' : List (Layer κ α τ cmp)}
    {s s' : store.State} {given : List (Answer α τ)} (runs : run store ((i,op) :: ops) layers s = some (given,layers',s')) :
    ∃ answer later after t, given = answer :: later ∧ step store op i layers s = some (answer,after,t) ∧
      run store ops after t = some (later,layers',s') := by
  rw [run] at runs
  cases stepped : step store op i layers s with
  | none => simp [stepped] at runs
  | some result =>
    obtain ⟨answer,after,t⟩ := result
    cases went : run store ops after t with
    | none => simp [stepped,went] at runs
    | some rest =>
      obtain ⟨later,last,u⟩ := rest
      obtain ⟨rfl,rfl,rfl⟩ : answer :: later = given ∧ last = layers' ∧ u = s' := by simpa [stepped,went] using runs
      exact ⟨answer,later,after,t,rfl,rfl,went⟩

theorem Reaches.below {keeps : α → Prop} {i : Nat} {op : Op κ α τ} {answer : Answer α τ} {l : Layer κ α τ cmp}
    {below : List (Layer κ α τ cmp)} (reaches : Reaches keeps (i+1) op answer (l :: below)) : Reaches keeps i op answer below := by
  cases op with
  | write k v => exact ⟨reaches.1.2,reaches.2⟩
  | modify k f =>
    cases answer with
    | wrote v => exact ⟨reaches.1.2,reaches.2⟩
    | _ => trivial
  | _ => trivial

theorem ReachesTip.below {guarded : Bool} {i : Nat} {op : Op κ α τ} {l : Layer κ α τ cmp} {below : List (Layer κ α τ cmp)}
    (reaches : ReachesTip guarded (i+1) op (l :: below)) : ReachesTip guarded i op below := by
  cases op with
  | setTip t => exact ⟨reaches.1.2,reaches.2⟩
  | flush works => exact reaches
  | _ => trivial

end Tetra.Overlay
