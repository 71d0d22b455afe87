import Mathlib
import Tetra.Tidy

/-!
`DisconnectBlock` after `ConnectBlock`. The run backwards is compared with the
run forwards state by state: the two views have the same coins, except for
versions the database may have rewritten, and the entries of the block's own
transactions are tidy in the view that is taken back.
-/
namespace Tetra
open Std

namespace CCoins

/-- The comparison of `DisconnectBlock` on an entry with the coins of its transaction. -/
theorem eq_ofTransaction_iff {outs : CCoins} {tx : CTransaction} {nHeight : Nat} (tidy : outs.Tidy)
    (sameOuts : ∀ n, (outs.coin n).map Coin.txout = ((ofTransaction tx nHeight).coin n).map Coin.txout)
    (coinbase : outs.fCoinBase = tx.IsCoinBase) (height : outs.nHeight = nHeight) (version : outs.nVersion = tx.nVersion) :
    outs.eq (ofTransaction tx nHeight) = true ↔ tx.SentinelSafe := by
  constructor
  · intro same
    simp only [CCoins.eq,Bool.and_eq_true,beq_iff_eq,List.all_eq_true] at same
    obtain ⟨_,lengths,each⟩ := same
    have pairwise (n : Nat) (a b : CTxOut) (left : outs.vout[n]? = some a) (right : tx.vout[n]? = some b) : a.eq b = true := by
      refine each (a,b) (List.mem_iff_getElem?.mpr ⟨n,?_⟩)
      exact List.getElem?_zip_eq_some.mpr ⟨left,right⟩
    have lengths' : outs.vout.length = tx.vout.length := lengths
    have nullTogether (n : Nat) (a b : CTxOut) (left : outs.vout[n]? = some a) (right : tx.vout[n]? = some b) :
        a.IsNull = b.IsNull := by
      have here := sameOuts n
      rw [coin_txout,coin_txout,left] at here
      have right' : (ofTransaction tx nHeight).vout[n]? = some b := right
      rw [right'] at here
      cases nullA : a.IsNull <;> cases nullB : b.IsNull <;> simp [Option.filter,nullA,nullB] at here ⊢
    constructor
    · intro out last
      obtain ⟨n,indexed⟩ : ∃ n, tx.vout[n]? = some out ∧ n+1 = tx.vout.length := by
        rw [Option.mem_def,List.getLast?_eq_getElem?] at last
        have inside := (List.getElem?_eq_some_iff.mp last).1
        exact ⟨tx.vout.length-1,last,by omega⟩
      obtain ⟨a,left⟩ : ∃ a, outs.vout[n]? = some a := by
        have inside : n < outs.vout.length := by omega
        exact ⟨outs.vout[n],List.getElem?_eq_getElem inside⟩
      rw [← nullTogether n a out left indexed.1]
      refine tidy.lastAvailable a ?_
      rw [Option.mem_def,List.getLast?_eq_getElem?,lengths',← left]
      congr 1
      omega
    · intro out member null
      obtain ⟨n,right⟩ := List.getElem?_of_mem member
      have inside := (List.getElem?_eq_some_iff.mp right).1
      have left : outs.vout[n]? = some outs.vout[n] := List.getElem?_eq_getElem (by omega)
      have nullA := (nullTogether n _ out left right).trans null
      have default := tidy.gapsDefault _ (List.mem_of_getElem? left) nullA
      have equal := pairwise n _ out left right
      rw [default] at equal
      exact (CTxOut.null_eq_iff out null).mp equal
  · intro safe
    have vouts : outs.vout = tx.vout := tidy.vout_eq ((tidy_ofTransaction_iff tx nHeight).mpr safe) sameOuts
    have same : outs = ofTransaction tx nHeight := by
      cases outs
      simp_all [ofTransaction]
    rw [same]
    exact eq_refl _

/-- An entry with one output put back at `n`, as `DisconnectBlock` does it. -/
def restored (coins : CCoins) (n : Nat) (txout : CTxOut) : CCoins :=
  {coins with vout := (coins.vout ++ List.replicate (n+1-coins.vout.length) CTxOut.null).set n txout}

theorem coin_restored (coins : CCoins) (n : Nat) (txout : CTxOut) (available : txout.IsNull = false) (m : Nat) :
    (coins.restored n txout).coin m =
      if m = n then some ⟨txout,coins.fCoinBase,coins.nHeight,coins.nVersion⟩ else coins.coin m := by
  have inside : n < (coins.vout ++ List.replicate (n+1-coins.vout.length) CTxOut.null).length := by
    simp only [List.length_append,List.length_replicate]
    omega
  by_cases same : m = n
  · subst same
    simp only [CCoins.coin,restored,List.getElem?_set_self inside,available,Bool.false_eq_true,if_false,if_true]
  · have padded : (coins.restored n txout).vout[m]? = (coins.vout ++ List.replicate (n+1-coins.vout.length) CTxOut.null)[m]? :=
      List.getElem?_set_ne (Ne.symm same)
    simp only [CCoins.coin,same,if_false,padded]
    by_cases short : m < coins.vout.length
    · rw [List.getElem?_append_left short]
      rfl
    · rw [List.getElem?_append_right (by omega),List.getElem?_replicate,
        (List.getElem?_eq_none (by omega) : coins.vout[m]? = none)]
      by_cases padding : m-coins.vout.length < n+1-coins.vout.length <;> simp [padding]

theorem restored_tidy {coins : CCoins} (tidy : coins.Tidy) (n : Nat) {txout : CTxOut} (available : txout.IsNull = false) :
    (coins.restored n txout).Tidy := by
  constructor
  · intro out last
    rw [Option.mem_def,List.getLast?_eq_getElem?] at last
    by_cases longer : n+1 < coins.vout.length
    · have nothing : n+1-coins.vout.length = 0 := by omega
      simp only [restored,nothing,List.replicate_zero,List.append_nil,List.length_set] at last
      rw [List.getElem?_set_ne (by omega),← List.getLast?_eq_getElem?] at last
      exact tidy.lastAvailable out last
    · have atEnd : (coins.restored n txout).vout.length-1 = n := by
        simp only [restored,List.length_set,List.length_append,List.length_replicate]
        omega
      rw [atEnd] at last
      have inside : n < (coins.vout ++ List.replicate (n+1-coins.vout.length) CTxOut.null).length := by
        simp only [List.length_append,List.length_replicate]
        omega
      simp only [restored,List.getElem?_set_self inside,Option.some.injEq] at last
      rw [← last]
      exact available
  · intro out member null
    rcases List.mem_or_eq_of_mem_set member with inside | rfl
    · rcases List.mem_append.mp inside with old | new
      · exact tidy.gapsDefault out old null
      · exact List.eq_of_mem_replicate new
    · simp [available] at null

theorem tidy_empty : (⟨c,[],h,v⟩ : CCoins).Tidy := ⟨by simp,by simp⟩

end CCoins
/-- Equal coins, up to versions related by `versions`. -/
def CoinFollows (versions : Int → Int → Prop) : Option Coin → Option Coin → Prop
  | none,none => True
  | some a,some b => a.txout = b.txout ∧ a.fCoinBase = b.fCoinBase ∧ a.nHeight = b.nHeight ∧ versions a.nVersion b.nVersion
  | _,_ => False

/-- What the database may do to versions: the stored version is allowed, and a
    version that is not negative stays. -/
structure VersionsKept (versions : Int → Int → Prop) : Prop where
  stored : ∀ v, versions v (storedVersion v)
  nonneg : ∀ v u, versions v u → 0 ≤ v → u = v

/-- Coins of connected blocks: values off the wire, heights above genesis. -/
def Settled (ledger : COutPoint → Option Coin) : Prop :=
  ∀ out coin, ledger out = some coin → 0 < coin.nHeight ∧ coin.txout.nValue.fixed = 0

/-- The view `w` of the run backwards beside the view `v` of the run forwards, after
    the transactions `done` of a block at `nHeight`. -/
structure Follows (env : Env) (nHeight : Nat) (versions : Int → Int → Prop) (done : List CTransaction)
    (v w : CCoinsViewCache) : Prop where
  ledger : ∀ out, CoinFollows versions (v.ledger out) (w.ledger out)
  hollow : ∀ tx ∈ done, tx.AllEmpty →
    w.GetCoins (env.TxHash tx) = none ∨ w.GetCoins (env.TxHash tx) = some (.ofTransaction tx nHeight)
  tidy : ∀ tx ∈ done, ¬tx.AllEmpty → ∀ coins, w.GetCoins (env.TxHash tx) = some coins → coins.Tidy

private theorem coinFollows_none (versions : Int → Int → Prop) {b : Option Coin} (follows : CoinFollows versions none b) :
    b = none := by
  cases b with
  | none => rfl
  | some _ => exact follows.elim

private theorem coinFollows_some {versions : Int → Int → Prop} {a : Coin} {b : Option Coin}
    (follows : CoinFollows versions (some a) b) :
    ∃ b', b = some b' ∧ a.txout = b'.txout ∧ a.fCoinBase = b'.fCoinBase ∧ a.nHeight = b'.nHeight ∧
      versions a.nVersion b'.nVersion := by
  cases b with
  | none => exact follows.elim
  | some b' => exact ⟨b',rfl,follows⟩

private theorem ledger_of_GetCoins {view : CCoinsViewCache} {hash : uint256} {coins : CCoins}
    (fetched : view.GetCoins hash = some coins) (n : Nat) : view.ledger ⟨hash,n⟩ = coins.coin n := by
  simp [CCoinsViewCache.ledger,fetched]

private theorem coin_getD (view : CCoinsViewCache) (hash : uint256) (n : Nat) :
    ((view.GetCoins hash).getD {}).coin n = view.ledger ⟨hash,n⟩ := by
  cases fetched : view.GetCoins hash <;> simp [CCoinsViewCache.ledger,fetched,CCoins.coin]

theorem CTxOut.stored_of_plain {out : CTxOut} (plain : out.nValue.fixed = 0) : out.stored = out := by
  obtain ⟨⟨locals,fixed⟩,script⟩ := out
  simp_all [CTxOut.stored,Cash.stored]

/-- Putting a spent input back takes both runs to the state before it was spent. -/
theorem restoreInput_follows {env : Env} {nHeight : Nat} {versions : Int → Int → Prop} (kept : VersionsKept versions)
    {done : List CTransaction} {v w : CCoinsViewCache} {out : COutPoint} {coins spent : CCoins} {undo : CTxInUndo}
    (fetched : v.GetCoins out.hash = some coins) (spends : coins.Spend out = some (spent,undo)) (settled : Settled v.ledger)
    (apart : ∀ tx ∈ done, tx.AllEmpty → env.TxHash tx ≠ out.hash)
    (follows : Follows env nHeight versions done (v.SetCoins out.hash spent) w) (fClean : Bool) :
    ∃ w', restoreInput ⟨w,fClean⟩ out undo.stored = ⟨w',fClean⟩ ∧ Follows env nHeight versions done v w' ∧
      w'.GetBestBlock = w.GetBestBlock := by
  obtain ⟨was,spentCoin⟩ := CCoins.Spend_eq_some spends
  have here : v.ledger out = coins.coin out.n := by rw [← ledger_of_GetCoins fetched out.n]
  obtain ⟨positive,plain⟩ := settled out _ (here.trans was)
  have available : undo.txout.IsNull = false := by
    obtain ⟨txout,_,notNull,same⟩ := (CCoins.coin_eq_some_iff ..).mp was
    have txouts : undo.txout = txout := congrArg Coin.txout same
    rw [txouts]
    exact notNull
  have left (m : Nat) : (v.SetCoins out.hash spent).ledger ⟨out.hash,m⟩ = if m = out.n then none else coins.coin m := by
    rw [CCoinsViewCache.ledger_SetCoins,if_pos rfl,spentCoin]
  have right (m : Nat) : CoinFollows versions (if m = out.n then none else coins.coin m)
      (((w.GetCoins out.hash).getD {}).coin m) := by
    rw [coin_getD,← left]
    exact follows.ledger ⟨out.hash,m⟩
  -- whichever way the entry is rebuilt, it follows the entry before the spend
  have finish (base : CCoins) (tidyBase : ((w.GetCoins out.hash).getD {}).Tidy → base.Tidy)
      (restores : ∀ m, CoinFollows versions (coins.coin m) ((base.restored out.n undo.txout).coin m)) :
      Follows env nHeight versions done v (w.SetCoins out.hash (base.restored out.n undo.txout)) := by
    refine ⟨fun other => ?_,fun tx member empty => ?_,fun tx member filled entry found => ?_⟩
    · rw [CCoinsViewCache.ledger_SetCoins]
      by_cases sameHash : other.hash = out.hash
      · have before : v.ledger other = coins.coin other.n := by
          rw [← ledger_of_GetCoins fetched other.n,← sameHash]
        rw [if_pos sameHash,before]
        exact restores other.n
      · have same := follows.ledger other
        rw [CCoinsViewCache.ledger_SetCoins,if_neg sameHash] at same
        rwa [if_neg sameHash]
    · rw [CCoinsViewCache.GetCoins_SetCoins,if_neg (Ne.symm (apart tx member empty))]
      exact follows.hollow tx member empty
    · rw [CCoinsViewCache.GetCoins_SetCoins] at found
      by_cases sameHash : out.hash = env.TxHash tx
      · rw [if_pos sameHash,Option.some.injEq] at found
        rw [← found]
        refine CCoins.restored_tidy (tidyBase ?_) _ available
        cases present : w.GetCoins out.hash with
        | none => exact CCoins.tidy_empty
        | some entry => exact follows.tidy tx member filled entry (sameHash ▸ present)
      · rw [if_neg sameHash] at found
        exact follows.tidy tx member filled entry found
  have storedOut : undo.stored.txout = undo.txout := CTxOut.stored_of_plain plain
  rcases CCoins.Spend_undo spends with ⟨gone,metadata⟩ | ⟨⟨m,remains⟩,metadata⟩
  · have height : undo.stored.nHeight = coins.nHeight := by rw [metadata]; rfl
    have version : undo.stored.nVersion = storedVersion coins.nVersion := by
      rw [metadata]
      exact if_pos positive
    have coinbase : undo.stored.fCoinBase = coins.fCoinBase := by rw [metadata]; rfl
    have pruned : ((w.GetCoins out.hash).getD {}).IsPruned = true := by
      rw [CCoins.isPruned_iff]
      intro n
      refine coinFollows_none versions ?_
      have := right n
      rwa [← spentCoin,gone n] at this
    let base : CCoins := ⟨coins.fCoinBase,[],coins.nHeight,storedVersion coins.nVersion⟩
    refine ⟨w.SetCoins out.hash (base.restored out.n undo.txout),?_,finish base (fun _ => CCoins.tidy_empty) ?_,rfl⟩
    · have notZero : coins.nHeight ≠ 0 := Nat.pos_iff_ne_zero.mp positive
      simp [restoreInput,height,version,coinbase,storedOut,pruned,notZero,CCoins.IsAvailable,CCoins.restored,base]
    · intro n
      rw [CCoins.coin_restored _ _ _ available]
      by_cases same : n = out.n
      · rw [if_pos same,same,was]
        exact ⟨rfl,rfl,rfl,kept.stored _⟩
      · have none : coins.coin n = none := by simpa [spentCoin,same] using gone n
        rw [if_neg same,none]
        trivial
  · have zero : undo.stored.nHeight = 0 := by rw [metadata]; rfl
    have notSame : m ≠ out.n := by
      rintro rfl
      simp [spentCoin] at remains
    have remains' : coins.coin m ≠ none := by simpa [spentCoin,notSame] using remains
    obtain ⟨other,present⟩ := Option.ne_none_iff_exists'.mp remains'
    obtain ⟨_,_,_,otherIs⟩ := (CCoins.coin_eq_some_iff ..).mp present
    have related := right m
    rw [if_neg notSame,present] at related
    obtain ⟨mate,found,_,sameCoinbase,sameHeight,sameVersion⟩ := coinFollows_some related
    obtain ⟨_,_,_,mateIs⟩ := (CCoins.coin_eq_some_iff ..).mp found
    rw [otherIs,mateIs] at sameCoinbase sameHeight sameVersion
    have notPruned : ((w.GetCoins out.hash).getD {}).IsPruned = false := by
      by_contra pruned
      have := (CCoins.isPruned_iff _).mp (by simpa using pruned) m
      simp [this] at found
    have notAvailable : ((w.GetCoins out.hash).getD {}).IsAvailable out.n = false := by
      by_contra stillThere
      have gone := coinFollows_none versions (by simpa using right out.n)
      exact (CCoins.isAvailable_iff _ _).mp (by simpa using stillThere) gone
    refine ⟨w.SetCoins out.hash (((w.GetCoins out.hash).getD {}).restored out.n undo.txout),?_,finish _ id ?_,rfl⟩
    · simp [restoreInput,zero,storedOut,notPruned,notAvailable,CCoins.restored]
    · intro n
      rw [CCoins.coin_restored _ _ _ available]
      by_cases same : n = out.n
      · rw [if_pos same,same,was]
        exact ⟨rfl,sameCoinbase,sameHeight,sameVersion⟩
      · have := right n
        rwa [if_neg same] at this ⊢

private theorem settled_spend {v : CCoinsViewCache} {out : COutPoint} {coins spent : CCoins} {undo : CTxInUndo}
    (settled : Settled v.ledger) (fetched : v.GetCoins out.hash = some coins) (spends : coins.Spend out = some (spent,undo)) :
    Settled (v.SetCoins out.hash spent).ledger := by
  intro other coin found
  rw [v.ledger_spend fetched spends] at found
  by_cases same : other = out
  · simp [same] at found
  · exact settled other coin (by simpa [same] using found)

/-- The loop over the inputs, last one first, undoes the loop that spent them. -/
theorem restoreInputs_follows {env : Env} {nHeight : Nat} {versions : Int → Int → Prop} (kept : VersionsKept versions)
    {done : List CTransaction} {vin : List CTxIn} {v after w : CCoinsViewCache} {undo : List CTxInUndo}
    (spends : CTransaction.spendInputs v vin = .ok (after,undo)) (settled : Settled v.ledger)
    (hollow : ∀ tx ∈ done, tx.AllEmpty → ∀ n, v.ledger ⟨env.TxHash tx,n⟩ = none)
    (follows : Follows env nHeight versions done after w) (fClean : Bool) :
    ∃ w', restoreInputs ⟨w,fClean⟩ vin (undo.map CTxInUndo.stored) = ⟨w',fClean⟩ ∧
      Follows env nHeight versions done v w' ∧ w'.GetBestBlock = w.GetBestBlock ∧ undo.length = vin.length := by
  induction vin generalizing v undo with
  | nil =>
    obtain ⟨rfl,rfl⟩ : v = after ∧ [] = undo := by simpa [CTransaction.spendInputs] using spends
    exact ⟨w,rfl,follows,rfl,rfl⟩
  | cons txin rest ih =>
    obtain ⟨coins,left,entry,entries,fetched,spent,later,rfl⟩ := CTransaction.spendInputs_cons spends
    have hollowLeft : ∀ tx ∈ done, tx.AllEmpty →
        ∀ n, (v.SetCoins txin.prevout.hash left).ledger ⟨env.TxHash tx,n⟩ = none := by
      intro tx member empty n
      rw [v.ledger_spend fetched spent,hollow tx member empty n]
      exact ite_self _
    obtain ⟨w1,restored,follows1,best1,lengths⟩ :=
      ih later (settled_spend settled fetched spent) hollowLeft
    have apart : ∀ tx ∈ done, tx.AllEmpty → env.TxHash tx ≠ txin.prevout.hash := by
      intro tx member empty same
      have was := (CCoins.Spend_eq_some spent).1
      have gone := hollow tx member empty txin.prevout.n
      rw [same,CCoinsViewCache.ledger] at gone
      simp [fetched,was] at gone
    obtain ⟨w2,restored2,follows2,best2⟩ := restoreInput_follows kept fetched spent settled apart follows1 fClean
    refine ⟨w2,?_,follows2,best2.trans best1,by simpa using lengths⟩
    rw [List.map_cons,restoreInputs,restored,restored2]

/-- Undo data of a transaction as the block keeps it: none for the coinbase. -/
def CTransaction.undoEntry (tx : CTransaction) (txundo : CTxUndo) : Option CTxUndo := if tx.IsCoinBase then none else some txundo

/-- The outputs of a transaction as a view gives them back, their version repaired when it
    is negative, equal those of the transaction just when these survive being stored. -/
private theorem eq_outsBlock {nHeight : Nat} {versions : Int → Int → Prop} (kept : VersionsKept versions) {tx : CTransaction}
    {outs : CCoins} (filled : ¬tx.AllEmpty) (tidy : outs.Tidy)
    (outputs : ∀ n, CoinFollows versions ((CCoins.ofTransaction tx nHeight).coin n) (outs.coin n)) :
    (if (CCoins.ofTransaction tx nHeight).nVersion < 0 then {outs with nVersion := (CCoins.ofTransaction tx nHeight).nVersion}
      else outs).eq (.ofTransaction tx nHeight) = decide tx.Survives := by
  obtain ⟨n,coin,present⟩ : ∃ n coin, (CCoins.ofTransaction tx nHeight).coin n = some coin := by
    by_contra missing
    push Not at missing
    exact filled ((CTransaction.allEmpty_iff tx nHeight).mpr fun n => Option.eq_none_iff_forall_ne_some.mpr (missing n))
  obtain ⟨_,_,_,coinIs⟩ := (CCoins.coin_eq_some_iff ..).mp present
  have related := outputs n
  rw [present] at related
  obtain ⟨mate,found,_,sameCoinbase,sameHeight,sameVersion⟩ := coinFollows_some related
  obtain ⟨_,_,_,mateIs⟩ := (CCoins.coin_eq_some_iff ..).mp found
  rw [coinIs,mateIs] at sameCoinbase sameHeight sameVersion
  have sameOuts (m : Nat) : (outs.coin m).map Coin.txout = ((CCoins.ofTransaction tx nHeight).coin m).map Coin.txout := by
    have here := outputs m
    cases left : (CCoins.ofTransaction tx nHeight).coin m with
    | none => rw [left] at here; simp [coinFollows_none versions here]
    | some a =>
      rw [left] at here
      obtain ⟨b,right,same,_⟩ := coinFollows_some here
      simp [right,same]
  have decides (fixed : CCoins) (tidyFixed : fixed.Tidy) (vouts : fixed.vout = outs.vout) (coinbase : fixed.fCoinBase = outs.fCoinBase)
      (height : fixed.nHeight = outs.nHeight) (version : fixed.nVersion = tx.nVersion) :
      fixed.eq (.ofTransaction tx nHeight) = decide tx.Survives := by
    have sameOuts' (m : Nat) : (fixed.coin m).map Coin.txout = ((CCoins.ofTransaction tx nHeight).coin m).map Coin.txout := by
      rw [← sameOuts m,CCoins.coin_txout,CCoins.coin_txout,vouts]
    have := CCoins.eq_ofTransaction_iff tidyFixed sameOuts' (coinbase.trans sameCoinbase.symm) (height.trans sameHeight.symm) version
    by_cases safe : tx.SentinelSafe
    · have survives : tx.Survives := Or.inr safe
      simp [this.mpr safe,survives]
    · have notEqual : fixed.eq (.ofTransaction tx nHeight) = false := by
        by_contra equal
        exact safe (this.mp (by simpa using equal))
      have lost : ¬tx.Survives := not_or.mpr ⟨filled,safe⟩
      simp [notEqual,lost]
  by_cases negative : tx.nVersion < 0
  · simp only [CCoins.ofTransaction,negative,if_true]
    exact decides _ ⟨tidy.lastAvailable,tidy.gapsDefault⟩ rfl rfl rfl rfl
  · simp only [CCoins.ofTransaction,negative,if_false]
    exact decides outs tidy rfl rfl rfl (kept.nonneg _ _ sameVersion (by simpa [CCoins.ofTransaction] using negative))

/-- The comparison that `DisconnectBlock` makes for the last transaction of those that
    are followed. -/
private theorem Follows.compares {env : Env} {nHeight : Nat} {versions : Int → Int → Prop} (kept : VersionsKept versions)
    {done : List CTransaction} {tx : CTransaction} {view w : CCoinsViewCache}
    (follows : Follows env nHeight versions (done ++ [tx]) (view.SetCoins (env.TxHash tx) (.ofTransaction tx nHeight)) w) :
    (if (CCoins.ofTransaction tx nHeight).nVersion < 0 then
        {(w.GetCoins (env.TxHash tx)).getD (.ofTransaction tx nHeight) with nVersion := (CCoins.ofTransaction tx nHeight).nVersion}
      else (w.GetCoins (env.TxHash tx)).getD (.ofTransaction tx nHeight)).eq (.ofTransaction tx nHeight) = decide tx.Survives := by
  by_cases empty : tx.AllEmpty
  · have same : (w.GetCoins (env.TxHash tx)).getD (.ofTransaction tx nHeight) = .ofTransaction tx nHeight := by
      rcases follows.hollow tx (by simp) empty with gone | there
      · simp [gone]
      · simp [there]
    have survives : tx.Survives := Or.inl empty
    simp [same,survives,CCoins.eq_refl]
  have outputs (n : Nat) : CoinFollows versions ((CCoins.ofTransaction tx nHeight).coin n) (w.ledger ⟨env.TxHash tx,n⟩) := by
    have := follows.ledger ⟨env.TxHash tx,n⟩
    rwa [CCoinsViewCache.ledger_SetCoins,if_pos rfl] at this
  cases fetched : w.GetCoins (env.TxHash tx) with
  | none =>
    -- without an entry no output could be there
    refine absurd ((CTransaction.allEmpty_iff tx nHeight).mpr fun n => ?_) empty
    have here := outputs n
    rw [CCoinsViewCache.ledger,fetched] at here
    cases left : (CCoins.ofTransaction tx nHeight).coin n with
    | none => rfl
    | some a =>
      rw [left] at here
      exact here.elim
  | some outs =>
    rw [Option.getD_some]
    refine eq_outsBlock kept empty (follows.tidy tx (by simp) empty outs fetched) fun n => ?_
    have here := outputs n
    rwa [ledger_of_GetCoins fetched] at here

/-- Without the outputs of the last transaction, the view follows the one after spending. -/
private theorem Follows.cleared {env : Env} {nHeight : Nat} {versions : Int → Int → Prop} {done : List CTransaction}
    {tx : CTransaction} {view w : CCoinsViewCache}
    (follows : Follows env nHeight versions (done ++ [tx]) (view.SetCoins (env.TxHash tx) (.ofTransaction tx nHeight)) w)
    (apart : ∀ other ∈ done, env.TxHash other ≠ env.TxHash tx) (fresh : ∀ n, view.ledger ⟨env.TxHash tx,n⟩ = none) :
    Follows env nHeight versions done view (w.SetCoins (env.TxHash tx) {}) := by
  refine ⟨fun out => ?_,fun other member empty => ?_,fun other member filled coins found => ?_⟩
  · rw [CCoinsViewCache.ledger_SetCoins]
    by_cases own : out.hash = env.TxHash tx
    · have none : view.ledger out = none := by
        have := fresh out.n
        rwa [← own] at this
      rw [if_pos own,none]
      trivial
    · have same := follows.ledger out
      rw [CCoinsViewCache.ledger_SetCoins,if_neg own] at same
      rwa [if_neg own]
  · rw [CCoinsViewCache.GetCoins_SetCoins,if_neg (Ne.symm (apart other member))]
    exact follows.hollow other (List.mem_append_left _ member) empty
  · rw [CCoinsViewCache.GetCoins_SetCoins,if_neg (Ne.symm (apart other member))] at found
    exact follows.tidy other (List.mem_append_left _ member) filled coins found

/-- Taking one transaction back undoes `UpdateCoins`; it stays clean exactly when the
    outputs of the transaction survive being stored. -/
theorem disconnectTransaction_follows {env : Env} {nHeight : Nat} {versions : Int → Int → Prop}
    (kept : VersionsKept versions) {done : List CTransaction} {tx : CTransaction} {v after w : CCoinsViewCache}
    {txundo : CTxUndo} (updates : tx.UpdateCoins v nHeight (env.TxHash tx) = .ok (after,txundo))
    (settled : Settled v.ledger) (fresh : ∀ n, v.ledger ⟨env.TxHash tx,n⟩ = none)
    (apart : ∀ other ∈ done, env.TxHash other ≠ env.TxHash tx)
    (hollow : ∀ other ∈ done, other.AllEmpty → ∀ n, v.ledger ⟨env.TxHash other,n⟩ = none)
    (follows : Follows env nHeight versions (done ++ [tx]) after w) (fClean : Bool) :
    ∃ w', disconnectTransaction env nHeight ⟨w,fClean⟩ tx ((tx.undoEntry txundo).map CTxUndo.stored) =
        .ok ⟨w',fClean && decide tx.Survives⟩ ∧
      Follows env nHeight versions done v w' ∧ w'.GetBestBlock = w.GetBestBlock := by
  obtain ⟨view,undo,spent,rfl,rfl⟩ := CTransaction.UpdateCoins_split updates
  have compares := follows.compares kept
  by_cases coinbase : tx.IsCoinBase = true
  · obtain ⟨rfl,_⟩ : v = view ∧ [] = undo := by simpa [coinbase] using spent
    refine ⟨w.SetCoins (env.TxHash tx) {},?_,follows.cleared apart fresh,rfl⟩
    rw [disconnectTransaction.eq_def]
    dsimp only
    rw [compares]
    simp [CTransaction.undoEntry,coinbase]
  · have spent' : CTransaction.spendInputs v tx.vin = .ok (view,undo) := by simpa [coinbase] using spent
    have freshView (n : Nat) : view.ledger ⟨env.TxHash tx,n⟩ = none := by
      rw [(CTransaction.spendInputs_ok spent').1,fresh n]
      exact ite_self _
    obtain ⟨w',restored,follows',best,lengths⟩ :=
      restoreInputs_follows kept spent' settled hollow (follows.cleared apart freshView) (fClean && decide tx.Survives)
    refine ⟨w',?_,follows',best⟩
    rw [disconnectTransaction.eq_def]
    dsimp only
    rw [compares]
    simp [CTransaction.undoEntry,coinbase,CTxUndo.stored,lengths,restored]

/-- Some transactions applied in order, with the undo data a block keeps for each. -/
def Applied (env : Env) (nHeight : Nat) : CCoinsViewCache → List (CTransaction × Option CTxUndo) → CCoinsViewCache → Prop
  | v,[],after => v = after
  | v,(tx,entry) :: rest,after => ∃ next txundo, tx.UpdateCoins v nHeight (env.TxHash tx) = .ok (next,txundo) ∧
      entry = tx.undoEntry txundo ∧ Applied env nHeight next rest after

theorem settled_applyTo {tx : CTransaction} {nHeight : Nat} {hash : uint256} {ledger : COutPoint → Option Coin}
    (settled : Settled ledger) (offWire : tx.OffWire) (positive : 0 < nHeight) : Settled (tx.applyTo hash nHeight ledger) := by
  intro out coin found
  rcases Ledger.step_eq_some found with ⟨_,made⟩ | ⟨_,_,kept⟩
  · obtain ⟨txout,indexed,_,rfl⟩ := (CCoins.coin_eq_some_iff ..).mp made
    exact ⟨positive,offWire txout (List.mem_of_getElem? indexed)⟩
  · exact settled out coin kept

private theorem applyTo_other {tx : CTransaction} {nHeight : Nat} {hash other : uint256} {ledger : COutPoint → Option Coin}
    (apart : other ≠ hash) (gone : ∀ n, ledger ⟨other,n⟩ = none) (n : Nat) : tx.applyTo hash nHeight ledger ⟨other,n⟩ = none := by
  rw [CTransaction.applyTo,Ledger.step_of_other (by simpa using apart),gone]
  exact ite_self _

private theorem applyTo_allEmpty {tx : CTransaction} {nHeight : Nat} {hash : uint256} {ledger : COutPoint → Option Coin}
    (empty : tx.AllEmpty) (n : Nat) : tx.applyTo hash nHeight ledger ⟨hash,n⟩ = none := by
  rw [CTransaction.applyTo,Ledger.step_of_owner (by simp)]
  exact empty.coin nHeight n

/-- Taking the transactions of a block back, last one first, follows their
    application back to its start. -/
theorem disconnectTransactions_follows {env : Env} {nHeight : Nat} {versions : Int → Int → Prop}
    (kept : VersionsKept versions) (positive : 0 < nHeight) {pairs : List (CTransaction × Option CTxUndo)}
    (done : List CTransaction) {v after w : CCoinsViewCache} (applied : Applied env nHeight v pairs after)
    (settled : Settled v.ledger) (offWire : ∀ pair ∈ pairs, pair.1.OffWire)
    (fresh : ∀ pair ∈ pairs, ∀ n, v.ledger ⟨env.TxHash pair.1,n⟩ = none)
    (distinct : ((done ++ pairs.map Prod.fst).map env.TxHash).Nodup)
    (hollow : ∀ tx ∈ done, tx.AllEmpty → ∀ n, v.ledger ⟨env.TxHash tx,n⟩ = none)
    (follows : Follows env nHeight versions (done ++ pairs.map Prod.fst) after w) (fClean : Bool) :
    ∃ w', disconnectTransactions env nHeight ⟨w,fClean⟩ (pairs.map fun pair => (pair.1,pair.2.map CTxUndo.stored)) =
        .ok ⟨w',fClean && pairs.all fun pair => decide pair.1.Survives⟩ ∧
      Follows env nHeight versions done v w' ∧ w'.GetBestBlock = w.GetBestBlock := by
  induction pairs generalizing v done with
  | nil =>
    obtain rfl : v = after := applied
    exact ⟨w,by simp [disconnectTransactions],by simpa using follows,rfl⟩
  | cons pair rest ih =>
    obtain ⟨tx,entry⟩ := pair
    obtain ⟨next,txundo,updates,rfl,applied⟩ := applied
    obtain ⟨ledgerNext,_,_,_⟩ := CTransaction.UpdateCoins_ok updates
    have regroup : done ++ ((tx,tx.undoEntry txundo) :: rest).map Prod.fst = (done ++ [tx]) ++ rest.map Prod.fst := by simp
    rw [regroup] at distinct follows
    have hashes := distinct
    simp only [List.map_append,List.nodup_append,List.map_cons,List.map_nil,List.mem_append,List.mem_singleton] at hashes
    obtain ⟨⟨_,_,doneApart⟩,_,restApart⟩ := hashes
    have apart : ∀ other ∈ done, env.TxHash other ≠ env.TxHash tx :=
      fun other member => doneApart _ (List.mem_map_of_mem member) _ rfl
    have freshNext : ∀ other ∈ rest, ∀ n, next.ledger ⟨env.TxHash other.1,n⟩ = none := by
      intro other member n
      rw [ledgerNext]
      refine applyTo_other ?_ (fresh other (List.mem_cons_of_mem _ member)) n
      exact Ne.symm (restApart _ (Or.inr rfl) _ (List.mem_map_of_mem (List.mem_map_of_mem member)))
    have hollowNext : ∀ other ∈ done ++ [tx], other.AllEmpty → ∀ n, next.ledger ⟨env.TxHash other,n⟩ = none := by
      intro other member empty n
      rw [ledgerNext]
      rcases List.mem_append.mp member with old | new
      · exact applyTo_other (apart other old) (hollow other old empty) n
      · obtain rfl : other = tx := by simpa using new
        exact applyTo_allEmpty empty n
    have first := offWire (tx,tx.undoEntry txundo) (List.mem_cons_self ..)
    obtain ⟨w1,disconnected,follows1,best1⟩ := ih (done ++ [tx]) applied (by rw [ledgerNext]; exact settled_applyTo settled first positive)
      (fun other member => offWire other (List.mem_cons_of_mem _ member)) freshNext distinct hollowNext follows
    obtain ⟨w2,disconnected2,follows2,best2⟩ := disconnectTransaction_follows kept updates settled
      (fresh (tx,tx.undoEntry txundo) (List.mem_cons_self ..)) apart hollow follows1
      (fClean && rest.all fun pair => decide pair.1.Survives)
    refine ⟨w2,?_,follows2,best2.trans best1⟩
    rw [List.map_cons,disconnectTransactions,disconnected]
    dsimp only
    rw [disconnected2,List.all_cons,Bool.and_assoc,Bool.and_comm (decide _)]

private theorem connectOrdinary_applied {env : Env} {params : ConnectParams} {txs : List CTransaction} {s s' : ConnectState}
    (connects : connectTransactions env params s txs = .ok s') (ordinary : ∀ tx ∈ txs, tx.IsCoinBase = false) :
    ∃ undos : List CTxUndo, s'.vtxundo = s.vtxundo ++ undos ∧ undos.length = txs.length ∧
      Applied env params.nHeight s.view (txs.zip (undos.map some)) s'.view := by
  induction txs generalizing s with
  | nil =>
    obtain rfl : s = s' := by simpa [connectTransactions] using connects
    exact ⟨[],by simp,rfl,rfl⟩
  | cons tx rest ih =>
    rw [connectTransactions] at connects
    cases turn : connectTransaction env params s tx with
    | error e => simp [turn] at connects
    | ok next =>
      simp only [turn] at connects
      have first := ordinary tx (List.mem_cons_self ..)
      rcases connectTransaction_ok turn with ⟨coinbase,_⟩ | ⟨_,_,_,_,_,txundo,_,_,_,updates,_,recorded,_⟩
      · simp [coinbase] at first
      · obtain ⟨undos,appended,lengths,applied⟩ := ih connects fun other member => ordinary other (List.mem_cons_of_mem _ member)
        refine ⟨txundo :: undos,by simp [appended,recorded],by simp [lengths],next.view,txundo,updates,?_,applied⟩
        simp [CTransaction.undoEntry,first]

/-- The loop of `ConnectBlock` over a coinbase and ordinary transactions applies them
    and keeps undo data for all but the coinbase. -/
theorem connectTransactions_applied {env : Env} {params : ConnectParams} {view : CCoinsViewCache} {coinbase : CTransaction}
    {rest : List CTransaction} {s : ConnectState} (isCoinbase : coinbase.IsCoinBase = true)
    (ordinary : ∀ tx ∈ rest, tx.IsCoinBase = false)
    (connects : connectTransactions env params {view := view} (coinbase :: rest) = .ok s) :
    s.vtxundo.length = rest.length ∧
      Applied env params.nHeight view ((coinbase :: rest).zip (none :: s.vtxundo.map some)) s.view := by
  rw [connectTransactions] at connects
  cases turn : connectTransaction env params {view := view} coinbase with
  | error e => simp [turn] at connects
  | ok next =>
    simp only [turn] at connects
    rcases connectTransaction_ok turn with ⟨_,⟨txundo,updates⟩,_,recorded,_⟩ | ⟨notCoinbase,_⟩
    · obtain ⟨undos,appended,lengths,applied⟩ := connectOrdinary_applied connects ordinary
      have all : s.vtxundo = undos := by rw [appended,recorded]; rfl
      rw [all]
      exact ⟨lengths,next.view,txundo,updates,by simp [CTransaction.undoEntry,isCoinbase],applied⟩
    · simp [isCoinbase] at notCoinbase

end Tetra
