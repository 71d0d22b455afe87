import Mathlib
import Tetra.SignatureHash
import Tetra.Templates

/-!
The cache of signatures that were found valid: what is looked up there is what the check
would find, and how many entries it comes to hold.
-/
namespace Tetra
open Std (ExtTreeSet TransOrd TransCmp LawfulEqOrd LawfulEqCmp)

/-- `sigdata_type`: signature hash, signature and the bytes of the public key. -/
structure SigData where
  hash : uint256
  vchSig : valtype
  pubKey : CPubKey
deriving DecidableEq

instance sigDataOrd : Ord SigData :=
  ⟨compareLex (compareOn SigData.hash) (compareLex (compareOn SigData.vchSig) (compareOn SigData.pubKey))⟩
instance sigDataTransOrd : TransOrd SigData :=
  inferInstanceAs (TransCmp (compareLex (compareOn SigData.hash) (compareLex (compareOn SigData.vchSig) (compareOn SigData.pubKey))))
instance sigDataLawfulEqOrd : LawfulEqOrd SigData where
  eq_of_compare {a b} same := by
    have all : compare a.hash b.hash = .eq ∧ compare a.vchSig b.vchSig = .eq ∧ compare a.pubKey b.pubKey = .eq := by
      simpa [compare,compareLex,compareOn,Ordering.then_eq_eq] using same
    cases a; cases b
    simp_all [LawfulEqCmp.compare_eq_iff_eq]

/-- What the check rests on: the hash of a stream, `CPubKey::Verify`, and the random hashes
    in the order they are drawn. -/
structure SigEnv where
  hash : List UInt8 → uint256
  Verify : uint256 → valtype → CPubKey → Bool
  GetRandHash : Nat → uint256

structure CSignatureCache where
  setValid : ExtTreeSet SigData := ∅
  /-- How many random hashes have been drawn. -/
  draws : Nat := 0

namespace CSignatureCache

def Get (cache : CSignatureCache) (k : SigData) : Bool := decide (k ∈ cache.setValid)

/-- `setValid.lower_bound`, with the empty vector for a signature and for a key; a key of no
    bytes has 0xFF in the place of its first. -/
def lower_bound (cache : CSignatureCache) (randomHash : uint256) : Option SigData :=
  cache.setValid.toList.find? fun it => (compare (⟨randomHash,[],[0xFF]⟩ : SigData) it).isLE

/-- The loop that evicts entries; none where it does not end or there is no entry. -/
def evict (env : SigEnv) (nMaxCacheSize : Int) : Nat → CSignatureCache → Option CSignatureCache
  | fuel, cache =>
    if (cache.setValid.size : Int) > nMaxCacheSize then
      match fuel, (cache.lower_bound (env.GetRandHash cache.draws)).or cache.setValid.toList.head? with
      | fuel+1, some it => evict env nMaxCacheSize fuel ⟨cache.setValid.erase it,cache.draws+1⟩
      | _, _ => none
    else some cache

/-- `Set`; there are at most as many turns as entries. -/
def Set (env : SigEnv) (nMaxCacheSize : Int) (cache : CSignatureCache) (k : SigData) : Option CSignatureCache :=
  if nMaxCacheSize ≤ 0 then some cache
  else (evict env nMaxCacheSize cache.setValid.size cache).map fun cache => {cache with setValid := cache.setValid.insert k}

end CSignatureCache

/-- The arguments of a call of `CheckSig`. -/
structure SigCall where
  vchSig : valtype
  vchPubKey : valtype
  scriptCode : CScript
  txTo : CTransaction
  nIn : Nat
  nHashType : Int32
  flags : ScriptFlags

/-- What is looked up: none where the key or the signature is turned down before. -/
def SigCall.sigdata (env : SigEnv) (call : SigCall) : Option SigData :=
  let pubkey := pubKeyBytes call.vchPubKey
  if pubkey.isEmpty then none
  else
    match call.vchSig.getLast? with
    | none => none
    | some back =>
      let type := Int32.ofNat back.toNat
      if call.nHashType ≠ 0 ∧ call.nHashType ≠ type then none
      else some ⟨SignatureHash env.hash call.scriptCode call.txTo call.nIn type,call.vchSig.dropLast,pubkey⟩

/-- `CheckSig`, with the cache before and after. -/
def CheckSig (env : SigEnv) (nMaxCacheSize : Int) (signatureCache : CSignatureCache) (call : SigCall) : Option (Bool × CSignatureCache) :=
  match call.sigdata env with
  | none => some (false,signatureCache)
  | some k =>
    if signatureCache.Get k then some (true,signatureCache)
    else if env.Verify k.hash k.vchSig k.pubKey = false then some (false,signatureCache)
    else if call.flags.NOCACHE then some (true,signatureCache)
    else (signatureCache.Set env nMaxCacheSize k).map fun signatureCache => (true,signatureCache)

/-- A row of calls: what they answer, and the cache they leave. -/
def runSigs (env : SigEnv) (nMaxCacheSize : Int) (signatureCache : CSignatureCache) : List SigCall → Option (List Bool × CSignatureCache)
  | [] => some ([],signatureCache)
  | call :: rest => do
    let (answer,signatureCache) ← CheckSig env nMaxCacheSize signatureCache call
    let (answers,signatureCache) ← runSigs env nMaxCacheSize signatureCache rest
    return (answer :: answers,signatureCache)

/-- What a call finds without looking into the cache. -/
def SigCall.verdict (env : SigEnv) (call : SigCall) : Bool := (call.sigdata env).any fun k => env.Verify k.hash k.vchSig k.pubKey

/-- What a call puts into the cache unless it is there. -/
def SigCall.stored (env : SigEnv) (call : SigCall) : Option SigData :=
  if call.flags.NOCACHE then none else (call.sigdata env).filter fun k => env.Verify k.hash k.vchSig k.pubKey

/-- A set with the members of a finite set has their number. -/
theorem size_eq_card {α : Type*} [Ord α] [TransOrd α] [LawfulEqOrd α] [DecidableEq α] {S : ExtTreeSet α} {F : Finset α}
    (same : ∀ k, k ∈ S ↔ k ∈ F) : S.size = F.card := by
  have once : S.toList.Nodup := by
    refine ExtTreeSet.distinct_toList.imp fun apart => ?_
    rintro rfl
    exact apart Std.ReflCmp.compare_self
  have members : S.toList.toFinset = F := by
    ext k
    rw [List.mem_toFinset,ExtTreeSet.mem_toList,same]
  rw [← members,List.toFinset_card_of_nodup once,ExtTreeSet.length_toList]

namespace CSignatureCache
variable {env : SigEnv} {nMaxCacheSize : Int} {cache : CSignatureCache}

/-- There is an entry to evict as long as there is one at all. -/
theorem exists_evicted (randomHash : uint256) (some_ : 0 < cache.setValid.size) :
    ∃ it ∈ cache.setValid, (cache.lower_bound randomHash).or cache.setValid.toList.head? = some it := by
  cases found : cache.lower_bound randomHash with
  | some it => exact ⟨it,ExtTreeSet.mem_toList.mp (List.mem_of_find?_eq_some found),rfl⟩
  | none =>
    cases entries : cache.setValid.toList with
    | nil =>
      rw [← ExtTreeSet.length_toList,entries] at some_
      exact absurd some_ (lt_irrefl 0)
    | cons it rest => exact ⟨it,ExtTreeSet.mem_toList.mp (by rw [entries]; exact List.mem_cons_self ..),rfl⟩

/-- Eviction ends, takes entries out only, and none while there is room. -/
theorem evict_spec (positive : 0 ≤ nMaxCacheSize) {fuel : Nat} (enough : cache.setValid.size ≤ fuel) :
    ∃ after, evict env nMaxCacheSize fuel cache = some after ∧ (∀ k, k ∈ after.setValid → k ∈ cache.setValid) ∧
      (after.setValid.size : Int) ≤ nMaxCacheSize ∧ ((cache.setValid.size : Int) ≤ nMaxCacheSize → after = cache) := by
  induction fuel generalizing cache with
  | zero =>
    refine ⟨cache,?_,fun _ => id,by omega,fun _ => rfl⟩
    rw [evict.eq_def]
    exact if_neg (by omega)
  | succ fuel ih =>
    by_cases large : (cache.setValid.size : Int) > nMaxCacheSize
    · obtain ⟨it,member,found⟩ := @exists_evicted cache (env.GetRandHash cache.draws) (by omega)
      have fewer : (cache.setValid.erase it).size = cache.setValid.size-1 := by rw [ExtTreeSet.size_erase,if_pos (ExtTreeSet.mem_iff_contains.mp member)]
      obtain ⟨after,evicts,within,small,_⟩ := @ih ⟨cache.setValid.erase it,cache.draws+1⟩ (by rw [fewer]; omega)
      refine ⟨after,?_,fun k inside => (ExtTreeSet.mem_erase.mp (within k inside)).2,small,fun room => by omega⟩
      rw [evict.eq_def]
      simp only [if_pos large,found]
      exact evicts
    · refine ⟨cache,?_,fun _ => id,by omega,fun _ => rfl⟩
      rw [evict.eq_def]
      exact if_neg large

/-- An entry is added, after others have gone if there were too many. -/
theorem Set_spec (positive : 0 < nMaxCacheSize) (k : SigData) :
    ∃ after, cache.Set env nMaxCacheSize k = some after ∧ (∀ k', k' ∈ after.setValid → k' = k ∨ k' ∈ cache.setValid) ∧
      (after.setValid.size : Int) ≤ nMaxCacheSize+1 ∧
      ((cache.setValid.size : Int) ≤ nMaxCacheSize → ∀ k', k' ∈ after.setValid ↔ k' = k ∨ k' ∈ cache.setValid) := by
  obtain ⟨after,evicts,within,small,room⟩ := @evict_spec env nMaxCacheSize cache (by omega) _ le_rfl
  have inserted : ∀ k', k' ∈ after.setValid.insert k ↔ k' = k ∨ k' ∈ after.setValid := by
    intro k'
    rw [ExtTreeSet.mem_insert,Std.compare_eq_iff_eq,eq_comm]
  refine ⟨{after with setValid := after.setValid.insert k},by rw [Set,if_neg (by omega),evicts]; rfl,fun k' inside => ?_,?_,fun fits k' => ?_⟩
  · exact ((inserted k').mp inside).imp_right (within k')
  · have := @ExtTreeSet.size_insert_le _ _ after.setValid _ k
    show ((after.setValid.insert k).size : Int) ≤ _
    omega
  · rw [inserted,room fits]

end CSignatureCache

/-- Only what was verified is in the cache. -/
def Verified (env : SigEnv) (cache : CSignatureCache) : Prop := ∀ k ∈ cache.setValid, env.Verify k.hash k.vchSig k.pubKey = true

section
variable {env : SigEnv} {nMaxCacheSize : Int} {cache : CSignatureCache}

/-- A call answers what it would without the cache. It adds what it stores, and nothing is
    evicted as long as there are not too many entries. -/
theorem CheckSig_spec (positive : 0 < nMaxCacheSize) (verified : Verified env cache) (bound : (cache.setValid.size : Int) ≤ nMaxCacheSize+1)
    (call : SigCall) :
    ∃ after, CheckSig env nMaxCacheSize cache call = some (call.verdict env,after) ∧ Verified env after ∧
      (after.setValid.size : Int) ≤ nMaxCacheSize+1 ∧
      ((cache.setValid.size : Int) ≤ nMaxCacheSize → ∀ k, k ∈ after.setValid ↔ call.stored env = some k ∨ k ∈ cache.setValid) := by
  rw [CheckSig,SigCall.verdict,SigCall.stored]
  cases sigdata : call.sigdata env with
  | none => exact ⟨cache,rfl,verified,bound,fun _ k => by simp⟩
  | some k =>
    by_cases cached : k ∈ cache.setValid
    · have verifies := verified k cached
      refine ⟨cache,by simp [CSignatureCache.Get,cached,verifies],verified,bound,fun _ k' => ?_⟩
      rw [Option.filter_some,if_pos verifies]
      refine (or_iff_right_of_imp fun stores => ?_).symm
      split at stores
      · contradiction
      · exact Option.some.inj stores ▸ cached
    · rw [Option.filter_some,Option.any_some]
      dsimp only
      rw [if_neg (by simp [CSignatureCache.Get,cached])]
      cases verifies : env.Verify k.hash k.vchSig k.pubKey with
      | false => exact ⟨cache,rfl,verified,bound,fun _ k' => by simp⟩
      | true =>
        cases hidden : call.flags.NOCACHE with
        | true => exact ⟨cache,rfl,verified,bound,fun _ k' => by simp⟩
        | false =>
          obtain ⟨after,sets,within,small,exactly⟩ := @CSignatureCache.Set_spec env nMaxCacheSize cache positive k
          refine ⟨after,by simp [sets],fun k' inside => ?_,small,fun fits k' => ?_⟩
          · rcases within k' inside with rfl | old
            · exact verifies
            · exact verified k' old
          · rw [exactly fits]
            simp [eq_comm]

/-- With caching disabled a call leaves the empty cache as it is. -/
theorem CheckSig_disabled (off : nMaxCacheSize ≤ 0) (draws : Nat) (call : SigCall) :
    CheckSig env nMaxCacheSize ⟨∅,draws⟩ call = some (call.verdict env,⟨∅,draws⟩) := by
  rw [CheckSig,SigCall.verdict]
  cases call.sigdata env with
  | none => rfl
  | some k =>
    rw [Option.any_some]
    dsimp only
    rw [if_neg (by simp [CSignatureCache.Get])]
    cases env.Verify k.hash k.vchSig k.pubKey with
    | false => rfl
    | true => simp [CSignatureCache.Set,if_pos off]

theorem runSigs_cons {call : SigCall} {rest : List SigCall} {answer : Bool} {answers : List Bool} {middle after : CSignatureCache}
    (checks : CheckSig env nMaxCacheSize cache call = some (answer,middle)) (runs : runSigs env nMaxCacheSize middle rest = some (answers,after)) :
    runSigs env nMaxCacheSize cache (call :: rest) = some (answer :: answers,after) := by
  simp [runSigs,checks,runs]

theorem runSigs_disabled (off : nMaxCacheSize ≤ 0) (draws : Nat) (calls : List SigCall) :
    runSigs env nMaxCacheSize ⟨∅,draws⟩ calls = some (calls.map (SigCall.verdict env),⟨∅,draws⟩) := by
  induction calls with
  | nil => rfl
  | cons call rest ih => exact runSigs_cons (CheckSig_disabled off draws call) ih

theorem runSigs_spec (positive : 0 < nMaxCacheSize) (verified : Verified env cache) (bound : (cache.setValid.size : Int) ≤ nMaxCacheSize+1)
    (calls : List SigCall) :
    ∃ after, runSigs env nMaxCacheSize cache calls = some (calls.map (SigCall.verdict env),after) ∧ Verified env after ∧
      (after.setValid.size : Int) ≤ nMaxCacheSize+1 := by
  induction calls generalizing cache with
  | nil => exact ⟨cache,rfl,verified,bound⟩
  | cons call rest ih =>
    obtain ⟨middle,checks,verified',bound',_⟩ := CheckSig_spec positive verified bound call
    obtain ⟨after,runs,later⟩ := ih verified' bound'
    exact ⟨after,runSigs_cons checks runs,later⟩

/-- A row with one more call at its end. -/
theorem runSigs_concat (calls : List SigCall) (call : SigCall) {answers : List Bool} {middle after : CSignatureCache} {answer : Bool}
    (runs : runSigs env nMaxCacheSize cache calls = some (answers,middle)) (checks : CheckSig env nMaxCacheSize middle call = some (answer,after)) :
    runSigs env nMaxCacheSize cache (calls ++ [call]) = some (answers ++ [answer],after) := by
  induction calls generalizing cache answers with
  | nil =>
    obtain ⟨rfl,rfl⟩ := Prod.mk.inj (Option.some.inj runs)
    exact runSigs_cons checks rfl
  | cons first rest ih =>
    rw [runSigs] at runs
    obtain ⟨⟨answer₁,cache₁⟩,checks₁,runs⟩ := Option.bind_eq_some_iff.mp runs
    obtain ⟨⟨answers₂,cache₂⟩,runs₂,same⟩ := Option.bind_eq_some_iff.mp runs
    obtain ⟨rfl,rfl⟩ := Prod.mk.inj (Option.some.inj same)
    exact runSigs_cons checks₁ (ih runs₂)

/-- The different triples that a row of calls stores. -/
def storedBy (env : SigEnv) (calls : List SigCall) : Finset SigData := (calls.filterMap (SigCall.stored env)).toFinset

theorem storedBy_concat (calls : List SigCall) (call : SigCall) (k : SigData) :
    k ∈ storedBy env (calls ++ [call]) ↔ call.stored env = some k ∨ k ∈ storedBy env calls := by
  simp [storedBy,or_comm]

theorem storedBy_early {done calls : List SigCall} (early : done <+: calls) : storedBy env done ⊆ storedBy env calls := by
  obtain ⟨rest,rfl⟩ := early
  intro k
  simp only [storedBy,List.filterMap_append,List.toFinset_append,Finset.mem_union]
  exact .inl

/-- As long as there are not too many entries before the last call, nothing is evicted. -/
theorem runSigs_keeps (positive : 0 < nMaxCacheSize) (calls : List SigCall)
    (fits : ∀ done, done <+: calls → done ≠ calls → ∀ answers after, runSigs env nMaxCacheSize {} done = some (answers,after) →
      (after.setValid.size : Int) ≤ nMaxCacheSize) :
    ∃ after, runSigs env nMaxCacheSize {} calls = some (calls.map (SigCall.verdict env),after) ∧
      after.setValid.size = (storedBy env calls).card := by
  suffices ∃ after, runSigs env nMaxCacheSize {} calls = some (calls.map (SigCall.verdict env),after) ∧ Verified env after ∧
      (after.setValid.size : Int) ≤ nMaxCacheSize+1 ∧ ∀ k, k ∈ after.setValid ↔ k ∈ storedBy env calls by
    obtain ⟨after,runs,_,_,same⟩ := this
    exact ⟨after,runs,size_eq_card same⟩
  induction calls using List.reverseRecOn with
  | nil => exact ⟨{},rfl,fun k inside => absurd inside (by simp),by simp; omega,by simp [storedBy]⟩
  | append_singleton calls call ih =>
    have shorter : calls ≠ calls ++ [call] := by simp
    obtain ⟨middle,runs,verified,bound,same⟩ := ih fun done early other =>
      fits done (early.trans (List.prefix_append ..)) fun equal => by
        have long := early.length_le
        rw [equal,List.length_append] at long
        simp at long
    have room := fits calls (List.prefix_append ..) shorter _ _ runs
    obtain ⟨after,checks,verified',bound',exactly⟩ := CheckSig_spec positive verified bound call
    refine ⟨after,?_,verified',bound',fun k => ?_⟩
    · rw [List.map_append]
      exact runSigs_concat calls call runs checks
    · rw [exactly room,same,storedBy_concat]

/-- The cache is transparent, and eviction ends, in every run. It stays within its maximum
    exactly when nothing is cached or all different triples that are stored fit. -/
theorem signatureCache_bounded_iff (env : SigEnv) (nMaxCacheSize : Int) (calls : List SigCall) :
    (∃ answers after disabled, runSigs env nMaxCacheSize {} calls = some (answers,after) ∧ runSigs env 0 {} calls = some (answers,disabled)) ∧
      ((∀ done, done <+: calls → ∀ answers after, runSigs env nMaxCacheSize {} done = some (answers,after) →
          (after.setValid.size : Int) ≤ max 0 nMaxCacheSize) ↔
        nMaxCacheSize ≤ 0 ∨ ((storedBy env calls).card : Int) ≤ nMaxCacheSize) := by
  rcases le_or_gt nMaxCacheSize 0 with off | positive
  · refine ⟨⟨_,_,_,runSigs_disabled off 0 calls,runSigs_disabled le_rfl 0 calls⟩,iff_of_true (fun done _ answers after runs => ?_) (.inl off)⟩
    obtain ⟨_,rfl⟩ := Prod.mk.inj (Option.some.inj ((runSigs_disabled off 0 done).symm.trans runs))
    simp
  · have empty : Verified env {} := fun k inside => absurd inside (by simp)
    have fresh : (({} : CSignatureCache).setValid.size : Int) ≤ nMaxCacheSize+1 := by simp; omega
    rw [max_eq_right positive.le,or_iff_right (not_le.mpr positive)]
    obtain ⟨after,runs,_⟩ := runSigs_spec positive empty fresh calls
    refine ⟨⟨_,_,_,runs,runSigs_disabled le_rfl 0 calls⟩,fun bounded => ?_,fun few done => ?_⟩
    · obtain ⟨last,runs',size⟩ := runSigs_keeps positive calls fun done early _ => bounded done early
      rw [← size]
      exact bounded calls (List.prefix_refl _) _ _ runs'
    · induction length : done.length using Nat.strong_induction_on generalizing done with
      | _ n ih =>
        subst length
        intro early answers after runs
        obtain ⟨last,runs',size⟩ := runSigs_keeps positive done fun shorter before other =>
          ih shorter.length (before.length_le.lt_of_ne fun same => other (before.eq_of_length same)) shorter rfl (before.trans early)
        obtain ⟨_,rfl⟩ := Prod.mk.inj (Option.some.inj (runs'.symm.trans runs))
        have fewer : (storedBy env done).card ≤ (storedBy env calls).card := Finset.card_le_card (storedBy_early early)
        omega

end

/-! Two signatures of one key, with room for one. -/

private def agreeing : SigEnv := ⟨fun _ => 0,fun _ _ _ => true,fun _ => 0⟩
private def signedBy (byte : UInt8) : SigCall :=
  ⟨[byte,1],2 :: List.replicate 32 0,[],⟨1,[],[],0,[]⟩,0,0,{}⟩

theorem signatureCache_overfull : ∃ answers after, runSigs agreeing 1 {} [signedBy 1,signedBy 2] = some (answers,after) ∧ after.setValid.size = 2 := by
  have runs : (runSigs agreeing 1 {} [signedBy 1,signedBy 2]).map (fun ended => ended.2.setValid.size) = some 2 := by decide +kernel
  obtain ⟨⟨answers,after⟩,ended,size⟩ := Option.map_eq_some_iff.mp runs
  exact ⟨answers,after,ended,size⟩

end Tetra
