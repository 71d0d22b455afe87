import Mathlib
import Tetra.OrderedItems
import Tetra.Renumber

/-!
Giving order positions to a wallet that was written before it had them: everything is
gathered in a multimap keyed by its time, and one pass over it gives positions to what has
none. Only the accounting entries of the account with the empty name are gathered.
-/
namespace Tetra
open Std (ExtTreeMap)

inductive DBErrors
  | DB_LOAD_OK
  | DB_CORRUPT
  | DB_NONCRITICAL_ERROR
  | DB_TOO_NEW
  | DB_LOAD_FAIL
  | DB_NEED_REWRITE
deriving DecidableEq

/-- Where a position is kept: with a transaction in `mapWallet`, or with a record of the database. -/
inductive Place
  | tx (hash : uint256)
  | entry (i : Nat)
deriving DecidableEq

/-- An item of `txByTime`; an entry comes with its place in the database. -/
abbrev TimedItem := TxPair HistoryTx (HistoryEntry × Nat)

namespace TimedItem

def place : TimedItem → Place
  | .tx hash _ => .tx hash
  | .entry acentry => .entry acentry.2

def nOrderPos (item : TimedItem) : Int := item.value HistoryTx.nOrderPos fun acentry => acentry.1.nOrderPos
def time (item : TimedItem) : Int := item.value HistoryTx.nTimeReceived fun acentry => acentry.1.nTime

end TimedItem

namespace HistoryWallet

/-- `ListAccountCreditDebit`, each entry with its place in the database. -/
def listPlaced (wallet : HistoryWallet) (strAccount : AccountName) : List (HistoryEntry × Nat) :=
  if strAccount = [0x2A] then wallet.acentries.zipIdx
  else wallet.acentries.zipIdx.filter fun acentry => acentry.1.strAccount == strAccount

/-- The items of `txByTime` in the order of its iteration. -/
def txByTime (wallet : HistoryWallet) : List TimedItem :=
  (TxItems.fill HistoryTx.nTimeReceived (fun acentry : HistoryEntry × Nat => acentry.1.nTime) wallet.mapWallet.toList
    (wallet.listPlaced [])).map Prod.snd

/-- The position is set: of a transaction in memory, of an entry when its record is written. -/
def setOrderPos (wallet : HistoryWallet) (item : TimedItem) (nOrderPos : Int) (written : Bool) : HistoryWallet :=
  match item with
  | .tx hash wtx => {wallet with mapWallet := wallet.mapWallet.insert hash {wtx with nOrderPos := nOrderPos}}
  | .entry acentry =>
    if written then {wallet with acentries := wallet.acentries.set acentry.2 {acentry.1 with nOrderPos := nOrderPos}} else wallet

/-- The pass over `txByTime`; `write` says which records the database takes. -/
def reorder (write : Place → Bool) (wallet : HistoryWallet) (nOrderPosOffsets : List Int) : List TimedItem → DBErrors × HistoryWallet
  | [] => (.DB_LOAD_OK,wallet)
  | item :: rest =>
    let written := write (TimedItem.place item)
    if TimedItem.nOrderPos item = -1 then
      let nOrderPos := wallet.nOrderPosNext
      let wallet := {wallet.setOrderPos item nOrderPos written with nOrderPosNext := nOrderPos+1}
      match item with
      | .tx _ _ => reorder write wallet (nOrderPosOffsets ++ [nOrderPos]) rest
      | .entry _ =>
        -- the database is the only place of an accounting entry
        if written then reorder write wallet (nOrderPosOffsets ++ [nOrderPos]) rest else (.DB_LOAD_FAIL,wallet)
    else
      let nOrderPosOff : Int := (nOrderPosOffsets.countP fun nOffsetStart => decide (TimedItem.nOrderPos item ≥ nOffsetStart) : Nat)
      let nOrderPos := TimedItem.nOrderPos item+nOrderPosOff
      let moved := {wallet.setOrderPos item nOrderPos (nOrderPosOff != 0 && written) with nOrderPosNext := max wallet.nOrderPosNext (nOrderPos+1)}
      if nOrderPosOff = 0 then reorder write moved nOrderPosOffsets rest
      else if written then reorder write moved nOrderPosOffsets rest
      else (.DB_LOAD_FAIL,moved)

def ReorderTransactions (wallet : HistoryWallet) (write : Place → Bool) : DBErrors × HistoryWallet :=
  reorder write {wallet with nOrderPosNext := 0} [] wallet.txByTime

/-- The position and the time that are kept at a place. -/
def orderPosAt (wallet : HistoryWallet) : Place → Option Int
  | .tx hash => wallet.mapWallet[hash]?.map HistoryTx.nOrderPos
  | .entry i => wallet.acentries[i]?.map HistoryEntry.nOrderPos

def timeAt (wallet : HistoryWallet) : Place → Option Int
  | .tx hash => wallet.mapWallet[hash]?.map HistoryTx.nTimeReceived
  | .entry i => wallet.acentries[i]?.map HistoryEntry.nTime

/-- The places that the pass comes by, in its order, and the positions they hold. -/
def visited (wallet : HistoryWallet) : List (Place × Int) := wallet.txByTime.map fun item => (item.place,item.nOrderPos)

section
variable {wallet : HistoryWallet} {item : TimedItem}

theorem txByTime_eq : wallet.txByTime = TxItems.inTurn wallet.mapWallet.toList (wallet.listPlaced []) := TxItems.fill_values ..

theorem mem_listPlaced {acentry : HistoryEntry} {i : Nat} :
    (acentry,i) ∈ wallet.listPlaced [] ↔ wallet.acentries[i]? = some acentry ∧ acentry.strAccount = [] := by
  rw [listPlaced,if_neg (by simp),List.mem_filter,List.mk_mem_zipIdx_iff_getElem?]
  simp

/-- An item that is visited holds what is kept at its place. -/
theorem orderPosAt_of_mem (member : item ∈ wallet.txByTime) : wallet.orderPosAt item.place = some item.nOrderPos := by
  rw [txByTime_eq,TxItems.inTurn,List.mem_append] at member
  rcases member with member | member
  · obtain ⟨⟨hash,wtx⟩,listed,rfl⟩ := List.mem_map.mp member
    have found : wallet.mapWallet[hash]? = some wtx := ExtTreeMap.mem_toList_iff_getElem?_eq_some.mp listed
    simp [TimedItem.place,TimedItem.nOrderPos,TxPair.value,orderPosAt,found]
  · obtain ⟨⟨acentry,i⟩,listed,rfl⟩ := List.mem_map.mp member
    simp [TimedItem.place,TimedItem.nOrderPos,TxPair.value,orderPosAt,(mem_listPlaced.mp listed).1]

/-- No place is visited twice. -/
theorem places_nodup : (wallet.txByTime.map TimedItem.place).Nodup := by
  rw [txByTime_eq,TxItems.inTurn,List.map_append,List.map_map,List.map_map]
  refine List.nodup_append.mpr ⟨?_,?_,?_⟩
  · have keys : (wallet.mapWallet.toList.map Prod.fst).Nodup := by
      rw [ExtTreeMap.map_fst_toList_eq_keys]
      exact ExtTreeMap.nodup_keys
    have same : (wallet.mapWallet.toList.map (TimedItem.place ∘ fun tx => TxPair.tx tx.1 tx.2)) =
        (wallet.mapWallet.toList.map Prod.fst).map Place.tx := by
      rw [List.map_map]
      rfl
    rw [same]
    exact keys.map fun a b same => by simpa using same
  · have indices : ((wallet.listPlaced []).map Prod.snd).Nodup := by
      rw [listPlaced,if_neg (by simp)]
      exact ((List.nodup_zipIdx_map_snd wallet.acentries).sublist ((List.filter_sublist).map Prod.snd))
    have same : ((wallet.listPlaced []).map (TimedItem.place ∘ TxPair.entry)) = ((wallet.listPlaced []).map Prod.snd).map Place.entry := by
      rw [List.map_map]
      rfl
    rw [same]
    exact indices.map fun a b same => by simpa using same
  · intro a left b right same
    obtain ⟨tx,-,rfl⟩ := List.mem_map.mp left
    obtain ⟨acentry,-,rfl⟩ := List.mem_map.mp right
    simp [TimedItem.place] at same

theorem orderPosAt_setOrderPos {nOrderPos : Int} {written : Bool} (found : wallet.orderPosAt item.place = some item.nOrderPos)
    (keeps : ∀ acentry, item = .entry acentry → written = false → nOrderPos = item.nOrderPos) (a : Place) :
    (wallet.setOrderPos item nOrderPos written).orderPosAt a = if a = item.place then some nOrderPos else wallet.orderPosAt a := by
  cases item with
  | tx hash wtx =>
    cases a with
    | tx other =>
      by_cases same : other = hash
      · subst same
        simp [setOrderPos,orderPosAt,TimedItem.place]
      · simp [setOrderPos,orderPosAt,TimedItem.place,ExtTreeMap.getElem?_insert,same,Ne.symm same]
    | entry j => simp [setOrderPos,orderPosAt,TimedItem.place]
  | entry acentry =>
    obtain ⟨acentry,i⟩ := acentry
    cases written with
    | false =>
      have still : nOrderPos = TimedItem.nOrderPos (.entry (acentry,i)) := keeps (acentry,i) rfl rfl
      by_cases same : a = TimedItem.place (.entry (acentry,i))
      · rw [if_pos same,same,still,← found]
        rfl
      · rw [if_neg same]
        rfl
    | true =>
      cases a with
      | tx hash => simp [setOrderPos,orderPosAt,TimedItem.place]
      | entry j =>
        by_cases same : j = i
        · subst same
          obtain ⟨kept,listed,-⟩ := Option.map_eq_some_iff.mp found
          have within : j < wallet.acentries.length := (List.getElem?_eq_some_iff.mp listed).choose
          simp [setOrderPos,orderPosAt,TimedItem.place,within]
        · simp [setOrderPos,orderPosAt,TimedItem.place,same,Ne.symm same]

/-- One step for an item without a position, when the pass ends well. -/
theorem reorder_unnumbered {write : Place → Bool} {rest : List TimedItem} {nOrderPosOffsets : List Int}
    (found : wallet.orderPosAt item.place = some item.nOrderPos) (unnumbered : item.nOrderPos = -1)
    (ok : (reorder write wallet nOrderPosOffsets (item :: rest)).1 = .DB_LOAD_OK) :
    ∃ moved : HistoryWallet, reorder write wallet nOrderPosOffsets (item :: rest) = reorder write moved (nOrderPosOffsets ++ [wallet.nOrderPosNext]) rest ∧
      moved.nOrderPosNext = wallet.nOrderPosNext+1 ∧
      ∀ a, moved.orderPosAt a = if a = item.place then some wallet.nOrderPosNext else wallet.orderPosAt a := by
  refine ⟨{wallet.setOrderPos item wallet.nOrderPosNext (write item.place) with nOrderPosNext := wallet.nOrderPosNext+1},?_,rfl,?_⟩
  · rw [reorder,if_pos unnumbered] at ok ⊢
    cases item with
    | tx hash wtx => rfl
    | entry acentry =>
      dsimp only at ok ⊢
      split at ok
      · next written => rw [if_pos written]
      · simp at ok
  · refine orderPosAt_setOrderPos found fun acentry entry unwritten => ?_
    subst entry
    rw [reorder,if_pos unnumbered] at ok
    dsimp only at ok
    rw [if_neg (by rw [unwritten]; simp)] at ok
    simp at ok

/-- One step for an item with a position, when the pass ends well. -/
theorem reorder_numbered {write : Place → Bool} {rest : List TimedItem} {nOrderPosOffsets : List Int}
    (found : wallet.orderPosAt item.place = some item.nOrderPos) (numbered : item.nOrderPos ≠ -1)
    (ok : (reorder write wallet nOrderPosOffsets (item :: rest)).1 = .DB_LOAD_OK) :
    ∃ moved : HistoryWallet, reorder write wallet nOrderPosOffsets (item :: rest) = reorder write moved nOrderPosOffsets rest ∧
      moved.nOrderPosNext = max wallet.nOrderPosNext (item.nOrderPos+Renumber.shift nOrderPosOffsets item.nOrderPos+1) ∧
      ∀ a, moved.orderPosAt a =
        if a = item.place then some (item.nOrderPos+Renumber.shift nOrderPosOffsets item.nOrderPos) else wallet.orderPosAt a := by
  have shifts : Renumber.shift nOrderPosOffsets item.nOrderPos =
      (nOrderPosOffsets.countP fun nOffsetStart => decide (item.nOrderPos ≥ nOffsetStart) : Nat) := rfl
  rw [reorder,if_neg numbered] at ok ⊢
  dsimp only at ok ⊢
  rw [← shifts] at ok ⊢
  by_cases still : Renumber.shift nOrderPosOffsets item.nOrderPos = 0
  · rw [if_pos still]
    refine ⟨_,rfl,rfl,orderPosAt_setOrderPos found fun acentry entry unwritten => ?_⟩
    rw [still,Int.add_zero]
  · rw [if_neg still] at ok ⊢
    split at ok
    · next written =>
      rw [if_pos written]
      refine ⟨_,rfl,rfl,orderPosAt_setOrderPos found fun acentry entry unwritten => ?_⟩
      simp [still,written] at unwritten
    · simp at ok

/-- A pass that ends well has made the moves of `Renumber.pass`, and no other. -/
theorem reorder_ok {write : Place → Bool} {items : List TimedItem} {nOrderPosOffsets : List Int}
    (found : ∀ item ∈ items, wallet.orderPosAt item.place = some item.nOrderPos) (once : (items.map TimedItem.place).Nodup)
    (ok : (reorder write wallet nOrderPosOffsets items).1 = .DB_LOAD_OK) :
    (reorder write wallet nOrderPosOffsets items).2.nOrderPosNext =
        (Renumber.pass wallet.nOrderPosNext nOrderPosOffsets (items.map fun item => (item.place,item.nOrderPos))).2 ∧
      (∀ e ∈ (Renumber.pass wallet.nOrderPosNext nOrderPosOffsets (items.map fun item => (item.place,item.nOrderPos))).1,
        (reorder write wallet nOrderPosOffsets items).2.orderPosAt e.tag = some e.new) ∧
      ∀ a ∉ items.map TimedItem.place, (reorder write wallet nOrderPosOffsets items).2.orderPosAt a = wallet.orderPosAt a := by
  induction items generalizing wallet nOrderPosOffsets with
  | nil => simp [reorder,Renumber.pass]
  | cons item rest ih =>
    obtain ⟨apart,once⟩ := List.nodup_cons.mp once
    -- the rest of the pass starts from a wallet in which only this place has changed
    have after {moved : HistoryWallet} {nOrderPos : Int}
        (changed : ∀ a, moved.orderPosAt a = if a = item.place then some nOrderPos else wallet.orderPosAt a) :
        ∀ other ∈ rest, moved.orderPosAt other.place = some other.nOrderPos := by
      intro other member
      have elsewhere : other.place ≠ item.place := fun same => apart (same ▸ List.mem_map_of_mem member)
      rw [changed,if_neg elsewhere]
      exact found other (by simp [member])
    have outside {moved : HistoryWallet} {nOrderPos : Int}
        (changed : ∀ a, moved.orderPosAt a = if a = item.place then some nOrderPos else wallet.orderPosAt a) :
        ∀ a ∉ (item :: rest).map TimedItem.place, moved.orderPosAt a = wallet.orderPosAt a := by
      intro a unlisted
      rw [changed,if_neg fun same => unlisted (by simp [same])]
    by_cases unnumbered : item.nOrderPos = -1
    · obtain ⟨moved,ran,next,changed⟩ := reorder_unnumbered (found item (by simp)) unnumbered ok
      rw [ran] at ok ⊢
      obtain ⟨last,made,kept⟩ := ih (after changed) once ok
      rw [next] at last made
      rw [List.map_cons,unnumbered,Renumber.pass_unnumbered]
      refine ⟨last,fun e member => ?_,fun a unlisted => ?_⟩
      · rcases List.mem_cons.mp member with rfl | member
        · rw [kept _ apart,changed,if_pos rfl]
        · exact made e member
      · rw [kept a fun member => unlisted (by simp [member]),outside changed a unlisted]
    · obtain ⟨moved,ran,next,changed⟩ := reorder_numbered (found item (by simp)) unnumbered ok
      rw [ran] at ok ⊢
      obtain ⟨last,made,kept⟩ := ih (after changed) once ok
      rw [next] at last made
      rw [List.map_cons,Renumber.pass_numbered _ unnumbered]
      refine ⟨last,fun e member => ?_,fun a unlisted => ?_⟩
      · rcases List.mem_cons.mp member with rfl | member
        · rw [kept _ apart,changed,if_pos rfl]
        · exact made e member
      · rw [kept a fun member => unlisted (by simp [member]),outside changed a unlisted]

/-- A record that the pass does not come by. -/
def Aside (wallet : HistoryWallet) (a : Place) : Prop :=
  ∃ i acentry, a = .entry i ∧ wallet.acentries[i]? = some acentry ∧ acentry.strAccount ≠ []

/-- What a wallet must be like for the repair to succeed: what has positions has proper ones, no
    record of another account lacks one, and what lacks one is come by in the order of the times. -/
structure Ready (wallet : HistoryWallet) : Prop where
  nonneg : ∀ a p, wallet.orderPosAt a = some p → p ≠ -1 → 0 ≤ p
  numbered : ∀ a p, wallet.Aside a → wallet.orderPosAt a = some p → p ≠ -1
  distinct : ∀ a b p, wallet.orderPosAt a = some p → wallet.orderPosAt b = some p → p ≠ -1 → (wallet.Aside a ↔ wallet.Aside b) → a = b
  timely : wallet.visited.Pairwise fun x y => x.2 = -1 → y.2 = -1 →
    ∀ s t, wallet.timeAt x.1 = some s → wallet.timeAt y.1 = some t → s ≤ t

/-- Besides, all positions differ, none lies where the pass miscounts, and those of other
    accounts are passed before anything that lacks one. -/
structure Repairable (wallet : HistoryWallet) : Prop extends Ready wallet where
  apart : ∀ a b p, wallet.orderPosAt a = some p → wallet.orderPosAt b = some p → p ≠ -1 → a = b
  clear : Renumber.Clear 0 0 wallet.visited
  passed : ∀ a p, wallet.Aside a → wallet.orderPosAt a = some p → ∃ x ∈ wallet.visited.takeWhile (fun x => x.2 != -1), p < x.2

/-- The moves of the pass. -/
def moves (wallet : HistoryWallet) : List (Renumber.Move Place) := (Renumber.pass 0 [] wallet.visited).1

/-- A record that is not come by keeps clear of the moves. -/
theorem Repairable.beside (can : wallet.Repairable) {a : Place} {s : Int} (aside : wallet.Aside a) (found : wallet.orderPosAt a = some s) :
    (∀ e ∈ wallet.moves, (e.old = -1 → s < e.new) ∧ (e.old ≠ -1 → (e.old < s → e.new = e.old) ∧ (s < e.old → s < e.new))) ∧
      s < (Renumber.pass 0 [] wallet.visited).2 :=
  Renumber.pass_aside (.inr (can.passed a s aside found))

section
variable {write : Place → Bool} (ok : (wallet.ReorderTransactions write).1 = .DB_LOAD_OK)
include ok

theorem reordered : (wallet.ReorderTransactions write).2.nOrderPosNext = (Renumber.pass 0 [] wallet.visited).2 ∧
    (∀ e ∈ wallet.moves, (wallet.ReorderTransactions write).2.orderPosAt e.tag = some e.new) ∧
    ∀ a ∉ wallet.txByTime.map TimedItem.place, (wallet.ReorderTransactions write).2.orderPosAt a = wallet.orderPosAt a :=
  @reorder_ok {wallet with nOrderPosNext := 0} _ _ _ (fun _ member => orderPosAt_of_mem member) places_nodup ok

end

end

end HistoryWallet

end Tetra
