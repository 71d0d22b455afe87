import Mathlib
import Tetra.SignRaw

/-!
Outputs that the caller of `signrawtransaction` supplies. They are written into the view
with a value that means that they are spent, so the loop never signs for them; the other
inputs are signed as without them.
-/
namespace Tetra
open Std

/-! ### What is available -/

theorem CCoins.outputAt_eq (coins : CCoins) (nPos : Nat) : coins.outputAt nPos = coins.vout[nPos]?.filter fun out => !out.IsNull := by
  unfold outputAt IsAvailable
  cases coins.vout[nPos]? with
  | none => rfl
  | some out =>
    by_cases null : out.IsNull = true
    · rw [Option.filter_some_neg (by simp [null])]
      simp [null]
    · rw [Option.filter_some_pos (by simp [null])]
      simp [null]

/-- The output that is supplied counts as spent, and the others are what they were. -/
theorem CCoins.outputAt_supply (coins : CCoins) (nOut : Nat) (scriptPubKey : CScript) (nPos : Nat) :
    (coins.supply nOut scriptPubKey).outputAt nPos = if nPos = nOut then none else coins.outputAt nPos := by
  have spent : (⟨Cash.assignAmount 0,scriptPubKey⟩ : CTxOut).IsNull = true := rfl
  rw [outputAt_eq,outputAt_eq,supply]
  dsimp only
  by_cases same : nPos = nOut
  · rw [if_pos same,same]
    generalize (if nOut ≥ coins.vout.length then coins.vout ++ List.replicate (nOut+1-coins.vout.length) CTxOut.null else coins.vout) = vout
    rw [List.getElem?_set_self']
    cases vout[nOut]? with
    | none => rfl
    | some out =>
      show (some (⟨Cash.assignAmount 0,scriptPubKey⟩ : CTxOut)).filter (fun out => !out.IsNull) = none
      exact Option.filter_some_neg (by rw [spent]; decide)
  · rw [if_neg same,List.getElem?_set_ne fun equal => same equal.symm]
    split
    · by_cases inside : nPos < coins.vout.length
      · rw [List.getElem?_append_left inside]
      · rw [List.getElem?_append_right (by omega),List.getElem?_replicate,List.getElem?_eq_none (by omega)]
        split <;> rfl
    · rfl

theorem CCoinsViewCache.output_eq (view : CCoinsViewCache) (prevout : COutPoint) :
    view.output prevout = (view.GetCoins prevout.hash).bind fun coins => coins.outputAt prevout.n := by
  unfold output
  cases view.GetCoins prevout.hash <;> rfl

theorem output_supply (view : CCoinsViewCache) (p : PrevTx) (prevout : COutPoint) :
    (view.SetCoins p.txid (((view.GetCoins p.txid).getD {}).supply p.vout.toNat p.scriptPubKey)).output prevout =
      if prevout = p.prevout then none else view.output prevout := by
  rw [CCoinsViewCache.output_eq,CCoinsViewCache.output_eq,CCoinsViewCache.GetCoins_SetCoins]
  by_cases other : p.txid = prevout.hash
  · have place : prevout.n = p.vout.toNat ↔ prevout = p.prevout := by
      rw [PrevTx.prevout,other]
      exact ⟨fun same => by rw [← same],fun same => by rw [same]⟩
    rw [if_pos other,Option.bind_some,CCoins.outputAt_supply,other]
    by_cases same : prevout = p.prevout
    · rw [if_pos same,if_pos (place.mpr same)]
    · rw [if_neg same,if_neg fun equal => same (place.mp equal)]
      cases view.GetCoins prevout.hash with
      | none => simp [CCoins.outputAt_eq]
      | some coins => rfl
  · have apart : prevout ≠ p.prevout := fun same => other (by rw [same]; rfl)
    rw [if_neg other,if_neg apart]

/-- The view of the inputs knows nothing but the chain. -/
theorem fetchCoins_le {chain : CCoinsView} {tx : CTransaction} {txid : uint256} {coins : CCoins}
    (fetched : (fetchCoins chain tx).GetCoins txid = some coins) : chain.GetCoins txid = some coins := by
  have kept : ∀ (vin : List CTxIn) (view : CCoinsViewCache), (∀ coins, view.GetCoins txid = some coins → chain.GetCoins txid = some coins) →
      ∀ coins, (vin.foldl (fetchInput chain) view).GetCoins txid = some coins → chain.GetCoins txid = some coins := by
    intro vin
    induction vin with
    | nil => exact fun view known => known
    | cons txin rest ih =>
      intro view known
      rw [List.foldl_cons]
      refine ih _ fun coins found => ?_
      unfold fetchInput at found
      split at found
      next read' read =>
        rw [CCoinsViewCache.GetCoins_SetCoins] at found
        split at found
        next same => rw [← same,read,found]
        · exact known coins found
      · exact known coins found
  exact kept tx.vin _ (fun coins found => by simp [CCoinsViewCache.GetCoins] at found) coins fetched

/-! ### What the entries do -/

section
variable {Keys : Type} {signing : Signing Keys} {fGivenKeys : Bool}

/-- The redeem script of an entry that is added to the keys. -/
def PrevTx.redeems (fGivenKeys : Bool) (p : PrevTx) : List CScript :=
  if fGivenKeys && CScript.IsPayToScriptHash p.scriptPubKey then p.redeemScript.toList else []

theorem addPrevTx_ok {state state' : CCoinsViewCache × List CScript} {p : PrevTx} (added : addPrevTx signing fGivenKeys state p = .ok state') :
    (∀ prevout, state'.1.output prevout = if prevout = p.prevout then none else state.1.output prevout) ∧
    state'.2 = p.redeems fGivenKeys ++ state.2 := by
  unfold addPrevTx at added
  dsimp only at added
  split at added
  · contradiction
  split at added
  · contradiction
  split at added
  · contradiction
  unfold PrevTx.redeems
  split at added
  next script =>
    split at added
    · contradiction
    next redeemScript given =>
      obtain rfl := Except.ok.inj added
      exact ⟨output_supply state.1 p,by rw [if_pos script,given]; rfl⟩
  next other =>
    obtain rfl := Except.ok.inj added
    exact ⟨output_supply state.1 p,by rw [if_neg other]; rfl⟩

/-- After all entries no supplied output is available, and the others are as before. -/
theorem addPrevTxs_ok {state state' : CCoinsViewCache × List CScript} {prevTxs : List PrevTx}
    (added : addPrevTxs signing fGivenKeys state prevTxs = .ok state') :
    (∀ prevout, state'.1.output prevout = if prevout ∈ prevTxs.map PrevTx.prevout then none else state.1.output prevout) ∧
    ∀ script, script ∈ state'.2 ↔ script ∈ prevTxs.flatMap (PrevTx.redeems fGivenKeys) ∨ script ∈ state.2 := by
  induction prevTxs generalizing state with
  | nil =>
    obtain rfl := Except.ok.inj added
    simp
  | cons p rest ih =>
    rw [addPrevTxs,List.foldlM_cons] at added
    cases first : addPrevTx signing fGivenKeys state p with
    | error e =>
      rw [first] at added
      contradiction
    | ok middle =>
      rw [first] at added
      obtain ⟨outputs,scripts⟩ := addPrevTx_ok first
      obtain ⟨outputs',scripts'⟩ := ih added
      refine ⟨fun prevout => ?_,fun script => ?_⟩
      · rw [outputs',outputs,List.map_cons]
        by_cases later : prevout ∈ rest.map PrevTx.prevout
        · rw [if_pos later,if_pos (List.mem_cons_of_mem _ later)]
        · rw [if_neg later]
          by_cases mine : prevout = p.prevout
          · rw [if_pos mine,if_pos (by rw [mine]; exact List.mem_cons_self ..)]
          · rw [if_neg mine,if_neg fun member => (List.mem_cons.mp member).elim mine later]
      · rw [scripts',scripts,List.flatMap_cons,List.mem_append,List.mem_append]
        tauto

/-- An entry that is well formed, and does not contradict the chain. -/
structure PrevTx.Fits (chain : CCoinsView) (fGivenKeys : Bool) (p : PrevTx) : Prop where
  place : 0 ≤ p.vout ∧ p.vout < 2^31-1
  redeem : (fGivenKeys && CScript.IsPayToScriptHash p.scriptPubKey) = true → p.redeemScript ≠ none
  known : ∀ coins out, chain.GetCoins p.txid = some coins → coins.outputAt p.vout.toNat = some out → out.scriptPubKey = p.scriptPubKey

theorem addPrevTx_of_fits {chain : CCoinsView} {state : CCoinsViewCache × List CScript} {p : PrevTx} (fits : p.Fits chain fGivenKeys)
    (known : ∀ out, state.1.output p.prevout = some out → out.scriptPubKey = p.scriptPubKey) :
    ∃ state', addPrevTx signing fGivenKeys state p = .ok state' := by
  have agrees : ((((state.1.GetCoins p.txid).getD {}).outputAt p.vout.toNat).filter fun out => out.scriptPubKey != p.scriptPubKey) = none := by
    rw [CCoinsViewCache.output_eq,PrevTx.prevout] at known
    dsimp only at known
    cases found : state.1.GetCoins p.txid with
    | none => rfl
    | some coins =>
      rw [found,Option.bind_some] at known
      rw [Option.getD_some]
      cases here : coins.outputAt p.vout.toNat with
      | none => rfl
      | some out => exact Option.filter_some_neg (by simp [known out here])
  have place := fits.place
  unfold addPrevTx
  dsimp only
  rw [if_neg (by omega),agrees]
  dsimp only
  rw [if_neg (by omega)]
  split
  next script =>
    obtain ⟨redeemScript,given⟩ := Option.ne_none_iff_exists'.mp (fits.redeem script)
    rw [given]
    exact ⟨_,rfl⟩
  · exact ⟨_,rfl⟩

theorem addPrevTxs_of_fits {chain : CCoinsView} {state : CCoinsViewCache × List CScript} {prevTxs : List PrevTx}
    (fits : ∀ p ∈ prevTxs, p.Fits chain fGivenKeys)
    (known : ∀ p ∈ prevTxs, ∀ out, state.1.output p.prevout = some out → out.scriptPubKey = p.scriptPubKey) :
    ∃ state', addPrevTxs signing fGivenKeys state prevTxs = .ok state' := by
  induction prevTxs generalizing state with
  | nil => exact ⟨state,rfl⟩
  | cons p rest ih =>
    obtain ⟨middle,first⟩ := @addPrevTx_of_fits Keys signing fGivenKeys chain state p (fits p (List.mem_cons_self ..)) (known p (List.mem_cons_self ..))
    have less : ∀ q ∈ rest, ∀ out, middle.1.output q.prevout = some out → out.scriptPubKey = q.scriptPubKey := by
      intro q member out found
      rw [(addPrevTx_ok first).1] at found
      split at found
      · contradiction
      · exact known q (List.mem_cons_of_mem _ member) out found
    obtain ⟨last,others⟩ := ih (fun q member => fits q (List.mem_cons_of_mem _ member)) less
    refine ⟨last,?_⟩
    rw [addPrevTxs,List.foldlM_cons,first]
    exact others

/-! ### The loop -/

theorem CTransaction.bare_withSig (tx : CTransaction) (i : Nat) (scriptSig : CScript) : (tx.withSig i scriptSig).bare = tx.bare := by
  have same : ∀ (vin : List CTxIn) (i : Nat), (vin.modify i fun txin => {txin with scriptSig := scriptSig}).map (fun txin => {txin with scriptSig := []}) =
      vin.map fun txin => {txin with scriptSig := []} := by
    intro vin
    induction vin with
    | nil => simp
    | cons txin rest ih =>
      intro i
      cases i with
      | zero => rfl
      | succ i => exact congrArg (List.cons _) (ih i)
  rw [bare,bare,withSig,same]

/-- The scripts that the variants have for an input. -/
def othersSigs (txVariants : List CTransaction) (i : Nat) : Option (List CScript) := txVariants.mapM fun txv => txv.vin[i]?.map CTxIn.scriptSig

/-- The signature before others are merged in. -/
def ownSig (signing : Signing Keys) (keystore : KeyStore Keys) (nHashType : Nat) (tx : CTransaction) (i : Nat) (prevPubKey : CScript) : CScript :=
  if !(nHashType%128 == SIGHASH_SINGLE) || decide (i < tx.vout.length) then signing.SignSignature keystore prevPubKey tx i nHashType else []

variable {keystore : KeyStore Keys} {txVariants : List CTransaction} {nHashType : Nat} {view : CCoinsViewCache}

/-- Signing an input does not look at the scripts that the inputs have so far. -/
theorem signInput_eq (mergedTx : CTransaction) (i : Nat) (prevPubKey : CScript) :
    signInput signing keystore txVariants nHashType mergedTx i prevPubKey = (othersSigs txVariants i).map fun others =>
      others.foldl (signing.CombineSignatures prevPubKey mergedTx.bare i) (ownSig signing keystore nHashType mergedTx.bare i prevPubKey) := by
  have combine : ∀ scriptSig scriptSig1 scriptSig2, signing.CombineSignatures prevPubKey (mergedTx.withSig i scriptSig) i scriptSig1 scriptSig2 =
      signing.CombineSignatures prevPubKey mergedTx.bare i scriptSig1 scriptSig2 := by
    intro scriptSig scriptSig1 scriptSig2
    rw [← signing.CombineSignatures_bare,CTransaction.bare_withSig]
  have merged : ∀ (txVariants : List CTransaction) (scriptSig : CScript),
      txVariants.foldlM (fun scriptSig txv => txv.vin[i]?.map fun txin =>
        signing.CombineSignatures prevPubKey (mergedTx.withSig i scriptSig) i scriptSig txin.scriptSig) scriptSig =
      (othersSigs txVariants i).map fun others => others.foldl (signing.CombineSignatures prevPubKey mergedTx.bare i) scriptSig := by
    intro txVariants
    induction txVariants with
    | nil => exact fun scriptSig => rfl
    | cons txv rest ih =>
      intro scriptSig
      rw [List.foldlM_cons,othersSigs,List.mapM_cons]
      cases txv.vin[i]? with
      | none => rfl
      | some txin =>
        have later := ih (signing.CombineSignatures prevPubKey mergedTx.bare i scriptSig txin.scriptSig)
        simp only [Option.map_some,Option.bind_eq_bind,Option.bind_some,combine] at later ⊢
        rw [later,othersSigs]
        cases rest.mapM fun txv => txv.vin[i]?.map CTxIn.scriptSig <;> rfl
  have own : signing.SignSignature keystore prevPubKey (mergedTx.withSig i []) i nHashType =
      signing.SignSignature keystore prevPubKey mergedTx.bare i nHashType := by
    rw [← signing.SignSignature_bare,CTransaction.bare_withSig]
  rw [signInput,ownSig,own]
  exact merged txVariants _

/-- The output that an input spends, when it is available. -/
def prevOutput (view : CCoinsViewCache) (tx : CTransaction) (i : Nat) : Option CTxOut := tx.vin[i]?.bind fun txin => view.output txin.prevout

theorem prevOutput_bare (tx : CTransaction) (i : Nat) : prevOutput view tx.bare i = prevOutput view tx i := by
  rw [prevOutput,prevOutput,CTransaction.bare,List.getElem?_map]
  cases tx.vin[i]? <;> rfl

/-- What an input is signed with. -/
def inputSig (signing : Signing Keys) (keystore : KeyStore Keys) (txVariants : List CTransaction) (nHashType : Nat) (tx : CTransaction) (i : Nat)
    (out : CTxOut) : Option CScript := signInput signing keystore txVariants nHashType tx.bare i out.scriptPubKey

/-- The first turns of the loop. -/
def signFirst (signing : Signing Keys) (view : CCoinsViewCache) (keystore : KeyStore Keys) (txVariants : List CTransaction) (nHashType : Nat)
    (tx : CTransaction) (n : Nat) : Option (CTransaction × Bool) :=
  (List.range n).foldlM (signTurn signing view keystore txVariants nHashType) (tx,true)

theorem signFirst_succ (tx : CTransaction) (n : Nat) :
    signFirst signing view keystore txVariants nHashType tx (n+1) =
      (signFirst signing view keystore txVariants nHashType tx n).bind fun state => signTurn signing view keystore txVariants nHashType state n := by
  simp [signFirst,List.range_succ]

theorem signTurn_none {tx : CTransaction} {state : CTransaction × Bool} {i : Nat} (same : state.1.bare = tx.bare)
    (absent : prevOutput view tx i = none) : signTurn signing view keystore txVariants nHashType state i = some (state.1,false) := by
  rw [← prevOutput_bare,← same,prevOutput_bare,prevOutput] at absent
  rw [signTurn,absent]

theorem signTurn_found {tx : CTransaction} {state : CTransaction × Bool} {i : Nat} {out : CTxOut} (same : state.1.bare = tx.bare)
    (found : prevOutput view tx i = some out) :
    signTurn signing view keystore txVariants nHashType state i = (inputSig signing keystore txVariants nHashType tx i out).map fun scriptSig =>
      (state.1.withSig i scriptSig,state.2 && signing.VerifyScript scriptSig out.scriptPubKey (state.1.withSig i scriptSig) i) := by
  rw [← prevOutput_bare,← same,prevOutput_bare,prevOutput] at found
  rw [signTurn,found]
  dsimp only
  rw [inputSig,signInput_eq,signInput_eq,← same]
  have bare : state.1.bare.bare = state.1.bare := by simp [CTransaction.bare,Function.comp_def]
  rw [bare]

/-- What the first turns leave: the inputs whose outputs are available have their signatures. -/
structure Turned (signing : Signing Keys) (view : CCoinsViewCache) (keystore : KeyStore Keys) (txVariants : List CTransaction) (nHashType : Nat)
    (tx : CTransaction) (n : Nat) (mergedTx : CTransaction) : Prop where
  same : mergedTx.bare = tx.bare
  sigs : ∀ i < n, ∀ out, prevOutput view tx i = some out → ∃ scriptSig, inputSig signing keystore txVariants nHashType tx i out = some scriptSig ∧
    mergedTx.vin[i]?.map CTxIn.scriptSig = some scriptSig

theorem withSig_other (tx : CTransaction) {i j : Nat} (other : j ≠ i) (scriptSig : CScript) : (tx.withSig i scriptSig).vin[j]? = tx.vin[j]? := by
  rw [CTransaction.withSig,List.getElem?_modify]
  simp [other.symm]

theorem withSig_self {tx : CTransaction} {i : Nat} (inside : i < tx.vin.length) (scriptSig : CScript) :
    (tx.withSig i scriptSig).vin[i]?.map CTxIn.scriptSig = some scriptSig := by
  rw [CTransaction.withSig,List.getElem?_modify,List.getElem?_eq_getElem inside]
  simp

theorem bare_length {tx tx' : CTransaction} (same : tx.bare = tx'.bare) : tx.vin.length = tx'.vin.length := by
  have sizes := congrArg (fun tx : CTransaction => tx.vin.length) same
  simpa [CTransaction.bare] using sizes

theorem inside_of_prevOutput {tx : CTransaction} {i : Nat} {out : CTxOut} (found : prevOutput view tx i = some out) : i < tx.vin.length := by
  obtain ⟨txin,here,-⟩ := Option.bind_eq_some_iff.mp found
  exact (List.getElem?_eq_some_iff.mp here).1

theorem Turned.turn {tx : CTransaction} {n : Nat} {state state' : CTransaction × Bool}
    (turned : Turned signing view keystore txVariants nHashType tx n state.1)
    (turns : signTurn signing view keystore txVariants nHashType state n = some state') :
    Turned signing view keystore txVariants nHashType tx (n+1) state'.1 := by
  cases found : prevOutput view tx n with
  | none =>
    obtain rfl := Option.some.inj ((signTurn_none turned.same found).symm.trans turns)
    refine ⟨turned.same,fun i below out here => ?_⟩
    rcases Nat.lt_succ_iff_lt_or_eq.mp below with earlier | rfl
    · exact turned.sigs i earlier out here
    · exact absurd (found.symm.trans here) (by simp)
  | some out =>
    rw [signTurn_found turned.same found] at turns
    obtain ⟨scriptSig,signs,same⟩ := Option.map_eq_some_iff.mp turns
    obtain rfl := same.symm
    refine ⟨(CTransaction.bare_withSig ..).trans turned.same,fun i below out' here => ?_⟩
    rcases Nat.lt_succ_iff_lt_or_eq.mp below with earlier | rfl
    · rw [withSig_other _ (by omega)]
      exact turned.sigs i earlier out' here
    · obtain rfl := Option.some.inj (found.symm.trans here)
      have inside : i < state.1.vin.length := (inside_of_prevOutput found).trans_eq (bare_length turned.same).symm
      exact ⟨scriptSig,signs,withSig_self inside scriptSig⟩

theorem turned_of_signFirst {tx mergedTx : CTransaction} {n : Nat} {fComplete : Bool}
    (ran : signFirst signing view keystore txVariants nHashType tx n = some (mergedTx,fComplete)) :
    Turned signing view keystore txVariants nHashType tx n mergedTx := by
  induction n generalizing mergedTx fComplete with
  | zero =>
    obtain ⟨rfl,-⟩ := Prod.mk.inj (Option.some.inj ran)
    exact ⟨rfl,fun i below => absurd below (Nat.not_lt_zero i)⟩
  | succ n ih =>
    rw [signFirst_succ] at ran
    obtain ⟨⟨before,complete⟩,earlier,turns⟩ := Option.bind_eq_some_iff.mp ran
    exact Turned.turn (ih earlier) turns

/-- The loop comes to its end when no variant lacks an input that is signed. -/
theorem signFirst_isSome {tx : CTransaction} {n : Nat} (signs : ∀ i < n, ∀ out, prevOutput view tx i = some out → othersSigs txVariants i ≠ none) :
    ∃ state, signFirst signing view keystore txVariants nHashType tx n = some state := by
  induction n with
  | zero => exact ⟨_,rfl⟩
  | succ n ih =>
    obtain ⟨state,ran⟩ := ih fun i below => signs i (Nat.lt_succ_of_lt below)
    have same := (@turned_of_signFirst Keys signing keystore txVariants nHashType view tx state.1 n state.2 ran).same
    rw [signFirst_succ,ran,Option.bind_some]
    cases found : prevOutput view tx n with
    | none => exact ⟨_,signTurn_none same found⟩
    | some out =>
      obtain ⟨others,given⟩ := Option.ne_none_iff_exists'.mp (signs n (Nat.lt_succ_self n) out found)
      rw [signTurn_found same found,inputSig,signInput_eq,given]
      exact ⟨_,rfl⟩

/-! ### The call -/

variable {node : SignNode Keys} {request : SignRequest Keys} {prevTxs : List PrevTx}

/-- The call returns a transaction in which an input has a good signature for the output it
    spends. -/
def Signed (signing : Signing Keys) (node : SignNode Keys) (request : SignRequest Keys) (prevTxs : List PrevTx) (i : Nat) : Prop :=
  ∃ view keystore mergedTx fComplete out scriptSig, prepareSigning signing node request prevTxs = .ok (view,keystore) ∧
    signrawtransaction signing node request prevTxs = .ok (some (mergedTx,fComplete)) ∧ prevOutput view request.rawtx i = some out ∧
    mergedTx.vin[i]?.map CTxIn.scriptSig = some scriptSig ∧ signing.VerifyScript scriptSig out.scriptPubKey mergedTx i = true

/-- What that takes, before anything is signed. -/
structure Signs (signing : Signing Keys) (node : SignNode Keys) (request : SignRequest Keys) (view : CCoinsViewCache) (keystore : KeyStore Keys)
    (i : Nat) (nHashType : Nat) : Prop where
  unlocked : (request.keys.isNone && node.IsLocked) = false
  sighash : mapSigHashValues.lookup request.sighash = some nHashType
  variants : ∀ j out, prevOutput view request.rawtx j = some out → othersSigs (request.rawtx :: request.others) j ≠ none
  good : ∃ out scriptSig, prevOutput view request.rawtx i = some out ∧
    inputSig signing keystore (request.rawtx :: request.others) nHashType request.rawtx i out = some scriptSig ∧
    signing.VerifyScript scriptSig out.scriptPubKey request.rawtx i = true

theorem signed_iff (prepared : prepareSigning signing node request prevTxs = .ok (view,keystore)) (i : Nat) :
    Signed signing node request prevTxs i ↔ ∃ nHashType, Signs signing node request view keystore i nHashType := by
  have loop : ∀ nHashType, signLoop signing view keystore (request.rawtx :: request.others) nHashType request.rawtx =
      signFirst signing view keystore (request.rawtx :: request.others) nHashType request.rawtx request.rawtx.vin.length := fun _ => rfl
  have verified : ∀ {mergedTx : CTransaction}, mergedTx.bare = request.rawtx.bare → ∀ scriptSig scriptPubKey,
      signing.VerifyScript scriptSig scriptPubKey mergedTx i = signing.VerifyScript scriptSig scriptPubKey request.rawtx i := by
    intro mergedTx same scriptSig scriptPubKey
    rw [← signing.VerifyScript_bare,same,signing.VerifyScript_bare]
  constructor
  · rintro ⟨view',keystore',mergedTx,fComplete,out,scriptSig,prepared',returned,found,has,good⟩
    obtain ⟨rfl,rfl⟩ := Prod.mk.inj (Except.ok.inj (prepared.symm.trans prepared'))
    unfold signrawtransaction at returned
    split at returned
    · contradiction
    next unlocked =>
    rw [prepared] at returned
    dsimp only at returned
    split at returned
    · contradiction
    next nHashType sighash =>
    have ran := Except.ok.inj returned
    rw [loop] at ran
    have turned := turned_of_signFirst ran
    refine ⟨nHashType,Bool.eq_false_of_not_eq_true unlocked,sighash,fun j out' found' missing => ?_,out,scriptSig,found,?_,?_⟩
    · obtain ⟨_,signs,-⟩ := turned.sigs j (inside_of_prevOutput found') out' found'
      rw [inputSig,signInput_eq,missing] at signs
      contradiction
    · obtain ⟨_,signs,has'⟩ := turned.sigs i (inside_of_prevOutput found) out found
      rw [signs,← has',has]
    · rw [← verified turned.same]
      exact good
  · rintro ⟨nHashType,unlocked,sighash,variants,out,scriptSig,found,signs,good⟩
    obtain ⟨⟨mergedTx,fComplete⟩,ran⟩ := @signFirst_isSome Keys signing keystore (request.rawtx :: request.others) nHashType view request.rawtx
      request.rawtx.vin.length fun j _ out' found' => variants j out' found'
    have turned := turned_of_signFirst ran
    obtain ⟨_,signs',has⟩ := turned.sigs i (inside_of_prevOutput found) out found
    obtain rfl := Option.some.inj (signs.symm.trans signs')
    refine ⟨view,keystore,mergedTx,fComplete,out,scriptSig,prepared,?_,found,has,?_⟩
    · rw [signrawtransaction,if_neg (by rw [unlocked]; decide),prepared]
      dsimp only
      rw [sighash]
      exact congrArg Except.ok ran
    · rw [verified turned.same]
      exact good

theorem prepareSigning_ok (prepared : prepareSigning signing node request prevTxs = .ok (view,keystore)) :
    (∀ prevout, view.output prevout =
      if prevout ∈ prevTxs.map PrevTx.prevout then none else (fetchCoins node.chain request.rawtx).output prevout) ∧
    (request.keys = none ∧ keystore = node.wallet ∨ ∃ keys, request.keys = some keys ∧ keystore.1 = keys ∧
      ∀ script, script ∈ keystore.2 ↔ script ∈ prevTxs.flatMap (PrevTx.redeems true)) := by
  unfold prepareSigning at prepared
  cases added : addPrevTxs signing request.keys.isSome (fetchCoins node.chain request.rawtx,[]) prevTxs with
  | error e =>
    rw [added] at prepared
    contradiction
  | ok state =>
    rw [added] at prepared
    obtain ⟨rfl,rfl⟩ := Prod.mk.inj (Except.ok.inj prepared)
    obtain ⟨outputs,scripts⟩ := addPrevTxs_ok added
    refine ⟨outputs,?_⟩
    cases given : request.keys with
    | none => exact .inl ⟨rfl,rfl⟩
    | some keys =>
      refine .inr ⟨keys,rfl,rfl,fun script => ?_⟩
      have listed := scripts script
      rw [given,Option.isSome_some] at listed
      rw [listed]
      simp

theorem prepareSigning_of_fits (fits : ∀ p ∈ prevTxs, p.Fits node.chain request.keys.isSome) :
    ∃ view keystore, prepareSigning signing node request prevTxs = .ok (view,keystore) := by
  have known : ∀ p ∈ prevTxs, ∀ out, (fetchCoins node.chain request.rawtx).output p.prevout = some out → out.scriptPubKey = p.scriptPubKey := by
    intro p member out found
    rw [CCoinsViewCache.output_eq] at found
    obtain ⟨coins,fetched,here⟩ := Option.bind_eq_some_iff.mp found
    exact (fits p member).known coins out (fetchCoins_le fetched) here
  obtain ⟨state,added⟩ := @addPrevTxs_of_fits Keys signing request.keys.isSome node.chain (fetchCoins node.chain request.rawtx,[]) prevTxs fits known
  unfold prepareSigning
  rw [added]
  exact ⟨_,_,rfl⟩

/-- A supplied output is available and its input gets signed when the keys are there; and an
    entry more leaves the other inputs signed. -/
structure Honours (signing : Signing Keys) (node : SignNode Keys) (request : SignRequest Keys) (prevTxs : List PrevTx) : Prop where
  available : ∃ view keystore, prepareSigning signing node request prevTxs = .ok (view,keystore) ∧
    ∀ p ∈ prevTxs, ∃ out, view.output p.prevout = some out ∧ out.scriptPubKey = p.scriptPubKey
  signed : ∀ view keystore nHashType, prepareSigning signing node request prevTxs = .ok (view,keystore) → ∀ p ∈ prevTxs, ∀ i txin scriptSig,
    request.rawtx.vin[i]? = some txin → txin.prevout = p.prevout →
    signInput signing keystore (request.rawtx :: request.others) nHashType request.rawtx i p.scriptPubKey = some scriptSig →
    signing.VerifyScript scriptSig p.scriptPubKey request.rawtx i = true → Signed signing node request prevTxs i
  undisturbed : ∀ before after p, prevTxs = before ++ after → (∀ q ∈ before ++ p :: after, q.Fits node.chain request.keys.isSome) →
    ∀ i txin, request.rawtx.vin[i]? = some txin → txin.prevout ≠ p.prevout → Signed signing node request (before ++ after) i →
    Signed signing node request (before ++ p :: after) i

/-- A signature that is good with some redeem scripts is good with more of them. -/
theorem ownSig_mono {keystore keystore' : KeyStore Keys} (same : keystore'.1 = keystore.1) (more : ∀ script ∈ keystore.2, script ∈ keystore'.2)
    {tx : CTransaction} {i : Nat} {prevPubKey : CScript} {others : List CScript}
    (good : signing.VerifyScript (others.foldl (signing.CombineSignatures prevPubKey tx.bare.bare i)
      (ownSig signing keystore nHashType tx.bare.bare i prevPubKey)) prevPubKey tx i = true) :
    signing.VerifyScript (others.foldl (signing.CombineSignatures prevPubKey tx.bare.bare i)
      (ownSig signing keystore' nHashType tx.bare.bare i prevPubKey)) prevPubKey tx i = true := by
  obtain ⟨keys,scripts⟩ := keystore
  obtain ⟨keys',scripts'⟩ := keystore'
  obtain rfl : keys' = keys := same
  have verified : ∀ scriptSig, signing.VerifyScript scriptSig prevPubKey tx i = signing.VerifyScript scriptSig prevPubKey tx.bare.bare i := by
    intro scriptSig
    rw [signing.VerifyScript_bare,signing.VerifyScript_bare]
  rw [verified] at good ⊢
  unfold ownSig at good ⊢
  split at good
  next own =>
    rw [if_pos own]
    exact signing.more_scripts keys' scripts scripts' more prevPubKey tx.bare.bare i nHashType others good
  next own =>
    rw [if_neg own]
    exact good

/-- An entry more does not take away a signature of an input that spends another output. -/
theorem signed_insert {before after : List PrevTx} {p : PrevTx} (fits : ∀ q ∈ before ++ p :: after, q.Fits node.chain request.keys.isSome)
    {i : Nat} {txin : CTxIn} (input : request.rawtx.vin[i]? = some txin) (other : txin.prevout ≠ p.prevout)
    (signed : Signed signing node request (before ++ after) i) : Signed signing node request (before ++ p :: after) i := by
  obtain ⟨view,keystore,_,_,_,_,prepared,_⟩ := id signed
  obtain ⟨view',keystore',prepared'⟩ := @prepareSigning_of_fits Keys signing node request _ fits
  obtain ⟨outputs,store⟩ := prepareSigning_ok prepared
  obtain ⟨outputs',store'⟩ := prepareSigning_ok prepared'
  obtain ⟨nHashType,signs⟩ := (signed_iff prepared i).mp signed
  refine (signed_iff prepared' i).mpr ⟨nHashType,signs.unlocked,signs.sighash,fun j out found => ?_,?_⟩
  · obtain ⟨txin',input',found'⟩ := Option.bind_eq_some_iff.mp found
    refine signs.variants j out (Option.bind_eq_some_iff.mpr ⟨txin',input',?_⟩)
    rw [outputs'] at found'
    rw [outputs]
    split at found'
    · contradiction
    next unsupplied =>
      rw [if_neg fun member => unsupplied ?_]
      · exact found'
      · simp only [List.map_append,List.mem_append,List.map_cons,List.mem_cons] at member ⊢
        tauto
  · obtain ⟨out,scriptSig,found,sig,good⟩ := signs.good
    have kept : prevOutput view' request.rawtx i = prevOutput view request.rawtx i := by
      have same : txin.prevout ∈ (before ++ p :: after).map PrevTx.prevout ↔ txin.prevout ∈ (before ++ after).map PrevTx.prevout := by
        simp only [List.map_append,List.mem_append,List.map_cons,List.mem_cons]
        tauto
      rw [prevOutput,prevOutput,input,Option.bind_some,Option.bind_some,outputs',outputs]
      by_cases supplied : txin.prevout ∈ (before ++ after).map PrevTx.prevout
      · rw [if_pos supplied,if_pos (same.mpr supplied)]
      · rw [if_neg supplied,if_neg fun member => supplied (same.mp member)]
    -- The key store is the wallet's, or has a redeem script more.
    rw [inputSig,signInput_eq] at sig
    obtain ⟨others,given,rfl⟩ := Option.map_eq_some_iff.mp sig
    refine ⟨out,_,kept.trans found,by rw [inputSig,signInput_eq,given]; rfl,?_⟩
    rcases store with ⟨none',rfl⟩ | ⟨keys,some',rfl,scripts⟩
    · rcases store' with ⟨-,rfl⟩ | ⟨keys',some'',-⟩
      · exact good
      · exact absurd (none'.symm.trans some'') (by simp)
    · rcases store' with ⟨none',-⟩ | ⟨keys',some'',same,scripts'⟩
      · exact absurd (some'.symm.trans none') (by simp)
      · obtain rfl : keystore.1 = keys' := Option.some.inj (some'.symm.trans some'')
        refine ownSig_mono same (fun script member => ?_) good
        rw [scripts,List.mem_flatMap] at member
        rw [scripts',List.mem_flatMap]
        obtain ⟨q,member,redeems⟩ := member
        refine ⟨q,?_,redeems⟩
        rcases List.mem_append.mp member with first | last
        · exact List.mem_append_left _ first
        · exact List.mem_append_right _ (List.mem_cons_of_mem _ last)

/-- Supplied outputs are honoured just when none is supplied. -/
theorem signrawtransaction_honours_iff (fits : ∀ p ∈ prevTxs, p.Fits node.chain request.keys.isSome) :
    Honours signing node request prevTxs ↔ prevTxs = [] := by
  constructor
  · intro honours
    obtain ⟨view,keystore,prepared,available⟩ := honours.available
    obtain ⟨outputs,-⟩ := prepareSigning_ok prepared
    refine List.eq_nil_iff_forall_not_mem.mpr fun p member => ?_
    obtain ⟨out,found,-⟩ := available p member
    rw [outputs,if_pos (List.mem_map_of_mem member)] at found
    contradiction
  · rintro rfl
    obtain ⟨view,keystore,prepared⟩ := @prepareSigning_of_fits Keys signing node request [] fits
    refine ⟨⟨view,keystore,prepared,fun p member => absurd member List.not_mem_nil⟩,fun _ _ _ _ p member => absurd member List.not_mem_nil,?_⟩
    intro before after p _ fits' i txin input other signed
    exact signed_insert fits' input other signed

end

/-! ### One input -/

/-- Every input is signed with one byte. -/
private def byteSigning : Signing Unit where
  SignSignature := fun _ _ _ _ _ => [1]
  CombineSignatures := fun _ _ _ scriptSig1 scriptSig2 => if scriptSig1.isEmpty then scriptSig2 else scriptSig1
  VerifyScript := fun scriptSig _ _ _ => scriptSig == [1]
  ToString := fun _ => ""
  SignSignature_bare := fun _ _ _ _ _ => rfl
  CombineSignatures_bare := fun _ _ _ _ _ => rfl
  VerifyScript_bare := fun _ _ _ _ => rfl
  more_scripts := fun _ _ _ _ _ _ _ _ _ good => good

private def emptyNode : SignNode Unit := ⟨⟨fun _ => none,none⟩,((),[]),false⟩
private def spendingTx : CTransaction := ⟨1,[⟨⟨7,0⟩,[],0⟩],[],0,[]⟩
private def spendRequest : SignRequest Unit := {rawtx := spendingTx,keys := some ()}
private def offline : PrevTx := ⟨7,0,[0xAC],none⟩

/-- The one output is supplied, and the transaction comes back without a signature. -/
theorem supplied_output_unsigned :
    (signrawtransaction byteSigning emptyNode spendRequest [offline]).toOption = some (some (spendingTx,false)) ∧
    ¬ Honours byteSigning emptyNode spendRequest [offline] := by
  refine ⟨by decide +kernel,fun honours => ?_⟩
  obtain ⟨view,keystore,prepared,available⟩ := honours.available
  obtain ⟨out,found,-⟩ := available offline (List.mem_cons_self ..)
  have spent : (prepareSigning byteSigning emptyNode spendRequest [offline]).toOption.map (fun state => state.1.output offline.prevout) = some none := by
    decide +kernel
  rw [prepared] at spent
  exact absurd (found.symm.trans (Option.some.inj spent)) (by simp)

theorem signrawtransaction_honours_sample :
    Honours byteSigning emptyNode spendRequest [] ∧ ¬ Honours byteSigning emptyNode spendRequest [offline] := by
  have fits : ∀ p ∈ [offline], p.Fits emptyNode.chain spendRequest.keys.isSome := by
    intro p member
    obtain rfl := List.mem_singleton.mp member
    exact ⟨by decide,fun script => absurd script (by decide),fun coins out found => by contradiction⟩
  exact ⟨(signrawtransaction_honours_iff fun p member => absurd member List.not_mem_nil).mpr rfl,
    fun honours => absurd ((signrawtransaction_honours_iff fits).mp honours) (List.cons_ne_nil _ _)⟩

end Tetra
