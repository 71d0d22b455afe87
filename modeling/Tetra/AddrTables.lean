import Mathlib
import Tetra.Eviction
import Tetra.Buckets

/-!
The tables of the address manager agree after every call: each entry is where the indices
say, in one tried bucket or in as many new ones as it counts.
-/
namespace Tetra
open Buckets Maps
open Std (ExtTreeMap TransOrd LawfulEqOrd)

@[simp] theorem mem_inOrder {vNew : Finset Int} {nId : Int} : nId ∈ inOrder vNew ↔ nId ∈ vNew := Finset.mem_sort _
@[simp] theorem length_inOrder (vNew : Finset Int) : (inOrder vNew).length = vNew.card := Finset.length_sort _
theorem nodup_inOrder (vNew : Finset Int) : (inOrder vNew).Nodup := Finset.sort_nodup _ _

namespace CAddrMan

/-- What the tables say of an entry. -/
structure Fits (s : CAddrMan) (stray : Finset Int) (owed : Option Int) (nId : Int) (info : CAddrInfo) : Prop where
  counted : nId < s.nIdCount
  byAddr : s.mapAddr[info.ip]? = some nId
  place : 0 ≤ info.nRandomPos
  back : s.vRandom[info.nRandomPos.toNat]? = some nId
  tries : 0 ≤ info.nLastTry
  successes : 0 ≤ info.nLastSuccess
  refs : info.nRefCount = holders s.vvNew nId+if owed = some nId then 1 else 0
  inTried : info.fInTried = true ↔ nId ∈ pooled s.vvTried
  tried : info.fInTried = true → info.nRefCount = 0 ∧ info.nLastSuccess ≠ 0
  new : info.fInTried = false → nId ∉ stray → 1 ≤ info.nRefCount ∧ info.nRefCount ≤ ADDRMAN_NEW_BUCKETS_PER_ADDRESS
  strays : nId ∈ stray → info.fInTried = false ∧ info.nRefCount = 0

/-- The tables agree. In the midst of a call some entries are on the way from one table to
    another, in neither, and one may be counted in a bucket that it will be put into. -/
structure Linked (s : CAddrMan) (stray : Finset Int) (owed : Option Int) : Prop where
  fits : ∀ nId info, s.mapInfo[nId]? = some info → Fits s stray owed nId info
  random : ∀ (i : Nat) nId, s.vRandom[i]? = some nId → ∃ info, s.mapInfo[nId]? = some info ∧ info.nRandomPos = i
  addrs : ∀ (addr : CNetAddr) nId, s.mapAddr[addr]? = some nId → ∃ info, s.mapInfo[nId]? = some info ∧ info.ip = addr
  triedKnown : ∀ nId ∈ pooled s.vvTried, ∃ info, s.mapInfo[nId]? = some info
  newKnown : ∀ b, ∀ nId ∈ s.vvNew b, ∃ info, s.mapInfo[nId]? = some info
  strayKnown : ∀ nId ∈ stray, ∃ info, s.mapInfo[nId]? = some info
  owedKnown : ∀ nId, owed = some nId → ∃ info, s.mapInfo[nId]? = some info
  once : (pooled s.vvTried).Nodup
  triedCount : s.nTried = (pooled s.vvTried).card
  newCount : s.nNew+s.nTried+stray.card = s.vRandom.length
  newSize : ∀ b, (s.vvNew b).card ≤ ADDRMAN_NEW_BUCKET_SIZE
  triedSize : ∀ b, (s.vvTried b).length ≤ ADDRMAN_TRIED_BUCKET_SIZE

theorem not_owed {k : Int} : ¬none = some k := nofun

variable {s : CAddrMan} {stray : Finset Int} {owed : Option Int} {nId : Int} {info : CAddrInfo}

theorem linked_new : Linked {} ∅ none := by
  have noTried : pooled ({} : CAddrMan).vvTried = 0 := pooled_nil
  refine ⟨?_,?_,?_,?_,?_,nofun,nofun,?_,?_,?_,?_,?_⟩
  · intro nId info found
    rw [show ({} : CAddrMan).mapInfo[nId]? = none from ExtTreeMap.getElem?_empty] at found
    contradiction
  · intro i nId found
    contradiction
  · intro addr nId found
    rw [show ({} : CAddrMan).mapAddr[addr]? = none from ExtTreeMap.getElem?_empty] at found
    contradiction
  · intro nId member
    rw [noTried] at member
    contradiction
  · intro b nId member
    contradiction
  · rw [noTried]
    exact Multiset.nodup_zero
  · rw [noTried]
    rfl
  · rfl
  · intro b
    exact Nat.zero_le _
  · intro b
    exact Nat.zero_le _

/-- Two states of an entry that the tables do not tell apart. -/
structure Alike (info info' : CAddrInfo) : Prop where
  ip : info'.ip = info.ip
  place : info'.nRandomPos = info.nRandomPos
  refs : info'.nRefCount = info.nRefCount
  inTried : info'.fInTried = info.fInTried
  tries : 0 ≤ info.nLastTry → 0 ≤ info'.nLastTry
  successes : 0 ≤ info.nLastSuccess → 0 ≤ info'.nLastSuccess
  succeeded : info.nLastSuccess ≠ 0 → info'.nLastSuccess ≠ 0

/-- A change of an entry that the tables do not see. -/
theorem Linked.touch (linked : Linked s stray owed) (found : s.mapInfo[nId]? = some info) {info' : CAddrInfo} (alike : Alike info info') :
    Linked (s.setInfo nId info') stray owed := by
  obtain ⟨fits,random,addrs,triedKnown,newKnown,strayKnown,owedKnown,once,triedCount,newCount,newSize,triedSize⟩ := linked
  refine ⟨?_,?_,?_,fun k member => found_insert _ (triedKnown k member),fun b k member => found_insert _ (newKnown b k member),
    fun k member => found_insert _ (strayKnown k member),fun k same => found_insert _ (owedKnown k same),once,triedCount,newCount,newSize,triedSize⟩
  · intro k y there
    rcases insert_some_iff.mp there with ⟨rfl,rfl⟩ | ⟨_,there⟩
    · obtain ⟨counted,byAddr,place,back,tries,successes,refs,inTried,tried,new,strays⟩ := fits k info found
      refine ⟨counted,?_,?_,?_,alike.tries tries,alike.successes successes,?_,?_,?_,?_,?_⟩
      · rw [alike.ip]
        exact byAddr
      · rw [alike.place]
        exact place
      · rw [alike.place]
        exact back
      · rw [alike.refs]
        exact refs
      · rw [alike.inTried]
        exact inTried
      · rw [alike.inTried,alike.refs]
        exact fun yes => ⟨(tried yes).1,alike.succeeded (tried yes).2⟩
      · rw [alike.inTried,alike.refs]
        exact new
      · rw [alike.inTried,alike.refs]
        exact strays
    · obtain ⟨counted,byAddr,place,back,tries,successes,refs,inTried,tried,new,strays⟩ := fits k y there
      exact ⟨counted,byAddr,place,back,tries,successes,refs,inTried,tried,new,strays⟩
  · exact fun i k here => exists_replace found alike.place.trans (random i k here)
  · exact fun addr k here => exists_replace found alike.ip.trans (addrs addr k here)

/-- An entry that no bucket knows. -/
theorem Linked.unheld (linked : Linked s stray owed) (absent : s.mapInfo[nId]? = none) : holders s.vvNew nId = 0 ∧ nId ∉ pooled s.vvTried := by
  constructor
  · by_contra some'
    obtain ⟨b,member⟩ := holders_pos_iff.mp (Nat.pos_of_ne_zero some')
    obtain ⟨info,found⟩ := linked.newKnown b nId member
    rw [absent] at found
    contradiction
  · intro member
    obtain ⟨info,found⟩ := linked.triedKnown nId member
    rw [absent] at found
    contradiction

theorem Linked.fresh (linked : Linked s stray owed) : s.mapInfo[s.nIdCount]? = none := by
  by_contra there
  obtain ⟨info,found⟩ := Option.ne_none_iff_exists'.mp there
  exact absurd (linked.fits _ info found).counted (lt_irrefl _)

/-- A new entry is in no bucket yet. -/
theorem Linked.create (linked : Linked s ∅ none) (addr : CAddress) (addrSource : CNetAddr) (absent : s.mapAddr[addr.ip]? = none) :
    Linked (s.Create addr addrSource).2.2 {s.nIdCount} none := by
  have fresh := linked.fresh
  obtain ⟨held,pool⟩ := linked.unheld fresh
  obtain ⟨fits,random,addrs,triedKnown,newKnown,_,_,once,triedCount,newCount,newSize,triedSize⟩ := linked
  refine ⟨?_,?_,?_,fun k member => found_insert _ (triedKnown k member),fun b k member => found_insert _ (newKnown b k member),?_,nofun,once,
    triedCount,?_,newSize,triedSize⟩
  · intro k y there
    rcases insert_some_iff.mp there with ⟨rfl,rfl⟩ | ⟨other,there⟩
    · refine ⟨Int.lt_succ _,insert_self _ _,Int.natCast_nonneg _,?_,le_refl _,le_refl _,?_,?_,nofun,?_,fun _ => ⟨rfl,rfl⟩⟩
      · show (s.vRandom ++ [s.nIdCount])[s.vRandom.length]? = _
        exact List.getElem?_concat_length
      · show (0 : Int) = holders s.vvNew s.nIdCount+0
        rw [held]
        rfl
      · exact ⟨nofun,fun member => absurd member pool⟩
      · intro _ out
        exact absurd (Finset.mem_singleton_self _) out
    · obtain ⟨counted,byAddr,place,back,tries,successes,refs,inTried,tried,new,strays⟩ := fits k y there
      refine ⟨Int.lt_add_one_of_le (le_of_lt counted),insert_other _ ?_ byAddr,place,?_,tries,successes,refs,inTried,tried,?_,?_⟩
      · intro same
        rw [same,absent] at byAddr
        contradiction
      · show (s.vRandom ++ [s.nIdCount])[y.nRandomPos.toNat]? = _
        rw [List.getElem?_append_left (List.getElem?_eq_some_iff.mp back).1]
        exact back
      · exact fun no _ => new no (Finset.notMem_empty k)
      · intro member
        exact absurd (Finset.mem_singleton.mp member) other
  · intro i k here
    rcases Nat.lt_or_ge i s.vRandom.length with low | high
    · rw [show (s.Create addr addrSource).2.2.vRandom = s.vRandom ++ [s.nIdCount] from rfl,List.getElem?_append_left low] at here
      refine exists_insert (random i k here) ?_
      rintro rfl
      obtain ⟨y,there,_⟩ := random i _ here
      rw [fresh] at there
      contradiction
    · rw [show (s.Create addr addrSource).2.2.vRandom = s.vRandom ++ [s.nIdCount] from rfl,List.getElem?_append_right high,
        List.getElem?_singleton] at here
      split at here
      next last =>
        obtain rfl := Option.some.inj here
        refine ⟨_,insert_self _ _,?_⟩
        show (s.vRandom.length : Int) = i
        omega
      · contradiction
  · intro ip k here
    rcases insert_some_iff.mp here with ⟨rfl,rfl⟩ | ⟨other,here⟩
    · exact ⟨_,insert_self _ _,rfl⟩
    · refine exists_insert (addrs ip k here) ?_
      rintro rfl
      obtain ⟨y,there,_⟩ := addrs ip _ here
      rw [fresh] at there
      contradiction
  · intro k member
    obtain rfl := Finset.mem_singleton.mp member
    exact ⟨_,insert_self _ _⟩
  · show s.nNew+s.nTried+(({s.nIdCount} : Finset Int).card : Int) = ((s.vRandom ++ [s.nIdCount]).length : Int)
    rw [Finset.card_singleton,List.length_append,List.length_singleton]
    rw [Finset.card_empty] at newCount
    omega

/-- One more reference is counted, to a bucket that will hold the entry; a stray entry
    becomes a new one. -/
theorem Linked.refer (linked : Linked s stray none) (found : s.mapInfo[nId]? = some info) (untried : info.fInTried = false)
    (low : info.nRefCount < ADDRMAN_NEW_BUCKETS_PER_ADDRESS) {n : Int} (count : n+(stray.erase nId).card = s.nNew+stray.card) :
    Linked {s.setInfo nId {info with nRefCount := info.nRefCount+1} with nNew := n} (stray.erase nId) (some nId) := by
  obtain ⟨fits,random,addrs,triedKnown,newKnown,strayKnown,_,once,triedCount,newCount,newSize,triedSize⟩ := linked
  refine ⟨?_,?_,?_,fun k member => found_insert _ (triedKnown k member),fun b k member => found_insert _ (newKnown b k member),
    fun k member => found_insert _ (strayKnown k (Finset.mem_of_mem_erase member)),?_,once,triedCount,?_,newSize,triedSize⟩
  · intro k y there
    rcases insert_some_iff.mp there with ⟨rfl,rfl⟩ | ⟨other,there⟩
    · obtain ⟨counted,byAddr,place,back,tries,successes,refs,inTried,_,_,_⟩ := fits k info found
      refine ⟨counted,byAddr,place,back,tries,successes,?_,inTried,?_,?_,?_⟩
      · show info.nRefCount+1 = holders s.vvNew k+if some k = some k then 1 else 0
        rw [refs,if_neg not_owed,if_pos rfl,Int.add_zero]
      · intro yes
        rw [show info.fInTried = true from yes] at untried
        contradiction
      · intro _ _
        have atLeast : 0 ≤ info.nRefCount := by
          rw [refs]
          simp
        exact ⟨by show 1 ≤ info.nRefCount+1; omega,by show info.nRefCount+1 ≤ _; omega⟩
      · intro member
        exact absurd rfl (Finset.ne_of_mem_erase member)
    · obtain ⟨counted,byAddr,place,back,tries,successes,refs,inTried,tried,new,strays⟩ := fits k y there
      refine ⟨counted,byAddr,place,back,tries,successes,?_,inTried,tried,?_,fun member => strays (Finset.mem_of_mem_erase member)⟩
      · rw [refs,if_neg not_owed,if_neg fun same => other (Option.some.inj same).symm]
        rfl
      · intro no out
        exact new no fun member => out (Finset.mem_erase.mpr ⟨other,member⟩)
  · exact fun i k here => exists_replace found (fun place => place) (random i k here)
  · exact fun addr k here => exists_replace found (fun same => same) (addrs addr k here)
  · intro k same
    obtain rfl := Option.some.inj same
    exact ⟨_,insert_self _ _⟩
  · show n+s.nTried+(stray.erase nId).card = s.vRandom.length
    omega

/-- The bucket takes the entry. -/
theorem Linked.insertNew {b : NewBucket} (linked : Linked s stray (some nId)) (out : nId ∉ s.vvNew b)
    (room : (s.vvNew b).card < ADDRMAN_NEW_BUCKET_SIZE) : Linked {s with vvNew := Function.update s.vvNew b (insert nId (s.vvNew b))} stray none := by
  obtain ⟨fits,random,addrs,triedKnown,newKnown,strayKnown,owedKnown,once,triedCount,newCount,newSize,triedSize⟩ := linked
  refine ⟨?_,random,addrs,triedKnown,?_,strayKnown,nofun,once,triedCount,newCount,?_,triedSize⟩
  · intro k y there
    obtain ⟨counted,byAddr,place,back,tries,successes,refs,inTried,tried,new,strays⟩ := fits k y there
    refine ⟨counted,byAddr,place,back,tries,successes,?_,inTried,tried,new,strays⟩
    rw [refs,if_neg not_owed]
    show _ = (holders (Function.update s.vvNew b (insert nId (s.vvNew b))) k : Int)+0
    rw [holders_insert out]
    by_cases same : k = nId
    · rw [if_pos (by rw [same]),if_pos same]
      push_cast
      omega
    · rw [if_neg fun here => same (Option.some.inj here).symm,if_neg same]
      push_cast
      omega
  · intro c k member
    by_cases here : c = b
    · subst here
      rw [show ({s with vvNew := Function.update s.vvNew c (insert nId (s.vvNew c))} : CAddrMan).vvNew c = insert nId (s.vvNew c) from
        Function.update_self ..] at member
      rcases Finset.mem_insert.mp member with rfl | member
      · exact owedKnown _ rfl
      · exact newKnown c k member
    · exact newKnown c k (by simpa [here] using member)
  · intro c
    by_cases here : c = b
    · subst here
      show (Function.update s.vvNew c _ c).card ≤ _
      rw [Function.update_self,Finset.card_insert_of_notMem out]
      exact room
    · show (Function.update s.vvNew b _ c).card ≤ _
      rw [Function.update_of_ne here]
      exact newSize c

/-- A reference is given up with the place in its bucket; the last one makes the entry a
    stray. -/
theorem Linked.unrefer {b : NewBucket} (linked : Linked s stray owed) (found : s.mapInfo[nId]? = some info) (held : nId ∈ s.vvNew b)
    (free : owed ≠ some nId) {stray' : Finset Int} {n : Int}
    (counts : (info.nRefCount-1 ≠ 0 ∧ stray' = stray ∧ n = s.nNew) ∨ (info.nRefCount-1 = 0 ∧ stray' = insert nId stray ∧ n = s.nNew-1)) :
    Linked {s.setInfo nId {info with nRefCount := info.nRefCount-1} with
      vvNew := Function.update s.vvNew b ((s.vvNew b).erase nId)
      nNew := n} stray' owed := by
  obtain ⟨fits,random,addrs,triedKnown,newKnown,strayKnown,owedKnown,once,triedCount,newCount,newSize,triedSize⟩ := linked
  have self := fits nId info found
  have some' : 0 < holders s.vvNew nId := holders_pos_iff.mpr ⟨b,held⟩
  have counted : info.nRefCount = holders s.vvNew nId := by
    rw [self.refs,if_neg free,Int.add_zero]
  have untried : info.fInTried = false := by
    by_contra yes
    have := (self.tried (by simpa using yes)).1
    omega
  have settled : nId ∉ stray := by
    intro member
    have := (self.strays member).2
    omega
  have inside : ∀ k, k ≠ nId → (k ∈ stray' ↔ k ∈ stray) := by
    intro k other
    rcases counts with ⟨_,rfl,_⟩ | ⟨_,rfl,_⟩
    · rfl
    · rw [Finset.mem_insert,or_iff_right other]
  refine ⟨?_,?_,?_,fun k member => found_insert _ (triedKnown k member),?_,?_,fun k same => found_insert _ (owedKnown k same),once,triedCount,?_,?_,
    triedSize⟩
  · intro k y there
    have less := holders_erase held k
    rcases insert_some_iff.mp there with ⟨rfl,rfl⟩ | ⟨other,there⟩
    · obtain ⟨low,byAddr,place,back,tries,successes,refs,inTried,_,new,_⟩ := self
      rw [if_pos rfl] at less
      refine ⟨low,byAddr,place,back,tries,successes,?_,inTried,?_,?_,?_⟩
      · show info.nRefCount-1 = holders (Function.update s.vvNew b ((s.vvNew b).erase k)) k+if owed = some k then 1 else 0
        rw [if_neg free]
        omega
      · intro yes
        rw [show info.fInTried = true from yes] at untried
        contradiction
      · intro _ out
        obtain ⟨_,high⟩ := new untried settled
        rcases counts with ⟨more,_,_⟩ | ⟨_,rfl,_⟩
        · exact ⟨by show 1 ≤ info.nRefCount-1; omega,by show info.nRefCount-1 ≤ _; omega⟩
        · exact absurd (Finset.mem_insert_self ..) out
      · intro member
        rcases counts with ⟨_,rfl,_⟩ | ⟨last,_,_⟩
        · exact absurd member settled
        · exact ⟨untried,last⟩
    · obtain ⟨low,byAddr,place,back,tries,successes,refs,inTried,tried,new,strays⟩ := fits k y there
      rw [if_neg other,Nat.add_zero] at less
      refine ⟨low,byAddr,place,back,tries,successes,?_,inTried,tried,?_,fun member => strays ((inside k other).mp member)⟩
      · show y.nRefCount = holders (Function.update s.vvNew b ((s.vvNew b).erase nId)) k+_
        rw [less]
        exact refs
      · exact fun no out => new no fun member => out ((inside k other).mpr member)
  · exact fun i k here => exists_replace found (fun place => place) (random i k here)
  · exact fun addr k here => exists_replace found (fun same => same) (addrs addr k here)
  · intro c k member
    refine found_insert _ (newKnown c k ?_)
    by_cases here : c = b
    · subst here
      rw [show ({s.setInfo nId _ with vvNew := Function.update s.vvNew c ((s.vvNew c).erase nId),nNew := n} : CAddrMan).vvNew c =
        (s.vvNew c).erase nId from Function.update_self ..] at member
      exact Finset.mem_of_mem_erase member
    · simpa [here] using member
  · intro k member
    by_cases same : k = nId
    · subst same
      exact ⟨_,insert_self _ _⟩
    · exact found_insert _ (strayKnown k ((inside k same).mp member))
  · show n+s.nTried+stray'.card = s.vRandom.length
    rcases counts with ⟨_,rfl,rfl⟩ | ⟨_,rfl,rfl⟩
    · exact newCount
    · rw [Finset.card_insert_of_notMem settled]
      push_cast
      omega
  · intro c
    by_cases here : c = b
    · subst here
      show (Function.update s.vvNew c _ c).card ≤ _
      rw [Function.update_self]
      exact (Finset.card_erase_le ..).trans (newSize c)
    · show (Function.update s.vvNew b _ c).card ≤ _
      rw [Function.update_of_ne here]
      exact newSize c

/-- What the exchange of two places in the random order does to the order and the entries. -/
structure Swapped (s : CAddrMan) (p q : Nat) (m : ExtTreeMap Int CAddrInfo) (r : List Int) : Prop where
  length : r.length = s.vRandom.length
  second : r[q]? = s.vRandom[p]?
  first : r[p]? = s.vRandom[q]?
  rest : ∀ i, i ≠ p → i ≠ q → r[i]? = s.vRandom[i]?
  moved : ∀ (k : Int) (info : CAddrInfo), s.mapInfo[k]? = some info → ∃ pos, m[k]? = some {info with nRandomPos := pos} ∧
    ((s.vRandom[p]? = some k ∧ pos = q) ∨ (s.vRandom[q]? = some k ∧ pos = p) ∨
      (s.vRandom[p]? ≠ some k ∧ s.vRandom[q]? ≠ some k ∧ pos = info.nRandomPos))
  before : ∀ (k : Int) (y : CAddrInfo), m[k]? = some y → ∃ info : CAddrInfo, s.mapInfo[k]? = some info

theorem Linked.swapped (linked : Linked s stray owed) {p q : Nat} (low : p < s.vRandom.length) (low' : q < s.vRandom.length) (other : p ≠ q) :
    ∃ (m : ExtTreeMap Int CAddrInfo) (r : List Int), s.SwapRandom p q = .ok {s with mapInfo := m,vRandom := r} ∧ Swapped s p q m r := by
  have at1 := List.getElem?_eq_getElem low
  have at2 := List.getElem?_eq_getElem low'
  generalize s.vRandom[p] = nId1 at at1
  generalize s.vRandom[q] = nId2 at at2
  obtain ⟨info1,found1,place1⟩ := linked.random p nId1 at1
  obtain ⟨info2,found2,place2⟩ := linked.random q nId2 at2
  have apart : nId1 ≠ nId2 := by
    rintro rfl
    obtain rfl := Option.some.inj (found1.symm.trans found2)
    omega
  refine ⟨(s.mapInfo.insert nId1 {info1 with nRandomPos := q}).insert nId2 {info2 with nRandomPos := p},
    (s.vRandom.set p nId2).set q nId1,?_,?_,?_,?_,?_,?_,?_⟩
  · rw [SwapRandom,if_neg other,at1,at2]
    dsimp only
    rw [found1,found2]
  · rw [List.length_set,List.length_set]
  · rw [List.getElem?_set_self (by rw [List.length_set]; exact low'),at1]
  · rw [List.getElem?_set_ne (Ne.symm other),List.getElem?_set_self low,at2]
  · intro i notP notQ
    rw [List.getElem?_set_ne (Ne.symm notQ),List.getElem?_set_ne (Ne.symm notP)]
  · intro k info found
    rw [at1,at2]
    by_cases first : nId1 = k
    · subst first
      obtain rfl := Option.some.inj (found1.symm.trans found)
      exact ⟨q,insert_other _ apart (insert_self _ _),.inl ⟨rfl,rfl⟩⟩
    · by_cases second : nId2 = k
      · subst second
        obtain rfl := Option.some.inj (found2.symm.trans found)
        exact ⟨p,insert_self _ _,.inr (.inl ⟨rfl,rfl⟩)⟩
      · exact ⟨info.nRandomPos,insert_other _ (Ne.symm second) (insert_other _ (Ne.symm first) found),
          .inr (.inr ⟨fun same => first (Option.some.inj same),fun same => second (Option.some.inj same),rfl⟩)⟩
  · intro k y there
    rcases insert_some_iff.mp there with ⟨rfl,rfl⟩ | ⟨_,there⟩
    · exact ⟨info2,found2⟩
    · rcases insert_some_iff.mp there with ⟨rfl,rfl⟩ | ⟨_,there⟩
      · exact ⟨info1,found1⟩
      · exact ⟨y,there⟩

/-- The entries lie where they say after an exchange. -/
theorem Swapped.linked {p q : Nat} {m : ExtTreeMap Int CAddrInfo} {r : List Int} (swapped : Swapped s p q m r) (linked : Linked s stray owed) :
    Linked {s with mapInfo := m,vRandom := r} stray owed := by
  obtain ⟨fits,random,addrs,triedKnown,newKnown,strayKnown,owedKnown,once,triedCount,newCount,newSize,triedSize⟩ := linked
  obtain ⟨length,second,first,rest,moved,before⟩ := swapped
  have known : ∀ k : Int, (∃ info, s.mapInfo[k]? = some info) → ∃ info, m[k]? = some info := by
    rintro k ⟨info,found⟩
    obtain ⟨pos,there,_⟩ := moved k info found
    exact ⟨_,there⟩
  refine ⟨?_,?_,?_,fun k member => known k (triedKnown k member),fun b k member => known k (newKnown b k member),
    fun k member => known k (strayKnown k member),fun k owes => known k (owedKnown k owes),once,triedCount,?_,newSize,triedSize⟩
  · intro k y there
    obtain ⟨info,found⟩ := before k y there
    obtain ⟨pos,there',where'⟩ := moved k info found
    obtain rfl : y = {info with nRandomPos := pos} := Option.some.inj (there.symm.trans there')
    obtain ⟨counted,byAddr,place,back,tries,successes,refs,inTried,tried,new,strays⟩ := fits k info found
    have here : 0 ≤ pos ∧ r[pos.toNat]? = some k := by
      rcases where' with ⟨isFirst,rfl⟩ | ⟨isSecond,rfl⟩ | ⟨notFirst,notSecond,rfl⟩
      · exact ⟨Int.natCast_nonneg q,second.trans isFirst⟩
      · exact ⟨Int.natCast_nonneg p,first.trans isSecond⟩
      · exact ⟨place,(rest _ (fun atP => notFirst (atP ▸ back)) fun atQ => notSecond (atQ ▸ back)).trans back⟩
    exact ⟨counted,byAddr,here.1,here.2,tries,successes,refs,inTried,tried,new,strays⟩
  · intro i k here
    change r[i]? = some k at here
    -- what is now at `i` was there before, or at the other of the two places
    by_cases isQ : i = q
    · subst isQ
      rw [second] at here
      obtain ⟨info,found,place⟩ := random p k here
      obtain ⟨pos,there,⟨_,rfl⟩ | ⟨isSecond,rfl⟩ | ⟨notFirst,_⟩⟩ := moved k info found
      · exact ⟨_,there,rfl⟩
      · obtain ⟨info',found',place'⟩ := random i k isSecond
        obtain rfl := Option.some.inj (found.symm.trans found')
        exact ⟨_,there,by rw [← place,place']⟩
      · exact absurd here notFirst
    · by_cases isP : i = p
      · subst isP
        rw [first] at here
        obtain ⟨info,found,place⟩ := random q k here
        obtain ⟨pos,there,⟨isFirst,rfl⟩ | ⟨_,rfl⟩ | ⟨_,notSecond,_⟩⟩ := moved k info found
        · obtain ⟨info',found',place'⟩ := random i k isFirst
          obtain rfl := Option.some.inj (found.symm.trans found')
          exact ⟨_,there,by rw [← place,place']⟩
        · exact ⟨_,there,rfl⟩
        · exact absurd here notSecond
      · rw [rest i isP isQ] at here
        obtain ⟨info,found,place⟩ := random i k here
        obtain ⟨pos,there,⟨isFirst,_⟩ | ⟨isSecond,_⟩ | ⟨_,_,rfl⟩⟩ := moved k info found
        · obtain ⟨info',found',place'⟩ := random p k isFirst
          obtain rfl := Option.some.inj (found.symm.trans found')
          omega
        · obtain ⟨info',found',place'⟩ := random q k isSecond
          obtain rfl := Option.some.inj (found.symm.trans found')
          omega
        · exact ⟨_,there,place⟩
  · intro addr k here
    obtain ⟨info,found,ip⟩ := addrs addr k here
    obtain ⟨pos,there,_⟩ := moved k info found
    exact ⟨_,there,ip⟩
  · show _ = (r.length : Int)
    rw [length]
    exact newCount

/-- Two places of the random order change, with what the entries say of them. -/
theorem Linked.swap (linked : Linked s stray owed) {p q : Nat} (low : p < s.vRandom.length) (low' : q < s.vRandom.length) :
    ∃ (m : ExtTreeMap Int CAddrInfo) (r : List Int), s.SwapRandom p q = .ok {s with mapInfo := m,vRandom := r} ∧ Linked {s with mapInfo := m,vRandom := r} stray owed ∧
      r.length = s.vRandom.length ∧ r[q]? = s.vRandom[p]? ∧
      ∀ (k : Int) (info : CAddrInfo), s.mapInfo[k]? = some info → ∃ pos, m[k]? = some {info with nRandomPos := pos} := by
  by_cases same : p = q
  · subst same
    exact ⟨s.mapInfo,s.vRandom,by rw [SwapRandom,if_pos rfl],linked,rfl,rfl,fun k info found => ⟨info.nRandomPos,found⟩⟩
  · obtain ⟨m,r,swaps,swapped⟩ := linked.swapped low low' same
    refine ⟨m,r,swaps,swapped.linked linked,swapped.length,swapped.second,fun k info found => ?_⟩
    obtain ⟨pos,there,_⟩ := swapped.moved k info found
    exact ⟨pos,there⟩

/-- Only the random order and the entries count. -/
theorem SwapRandom_congr {t : CAddrMan} {p q : Nat} {m : ExtTreeMap Int CAddrInfo} {r : List Int}
    (ok : t.SwapRandom p q = .ok {t with mapInfo := m,vRandom := r}) (infos : s.mapInfo = t.mapInfo) (ids : s.vRandom = t.vRandom) :
    s.SwapRandom p q = .ok {s with mapInfo := m,vRandom := r} := by
  unfold SwapRandom at ok ⊢
  rw [infos,ids]
  by_cases same : p = q
  · rw [if_pos same] at ok ⊢
    have all := Except.ok.inj ok
    have isM : m = s.mapInfo := (congrArg CAddrMan.mapInfo all).symm.trans infos.symm
    have isR : r = s.vRandom := (congrArg CAddrMan.vRandom all).symm.trans ids.symm
    rw [isM,isR]
  · rw [if_neg same] at ok ⊢
    split at ok
    · split at ok
      · have all := Except.ok.inj ok
        rw [← show _ = m from congrArg CAddrMan.mapInfo all,← show _ = r from congrArg CAddrMan.vRandom all]
      · contradiction
      · contradiction
    · contradiction

/-- A stray at the end of the random order goes. -/
theorem Linked.remove (linked : Linked s stray owed) (found : s.mapInfo[nId]? = some info) (stays : nId ∈ stray)
    (last : s.vRandom[s.vRandom.length-1]? = some nId) :
    Linked {s with vRandom := s.vRandom.dropLast,mapAddr := s.mapAddr.erase info.ip,mapInfo := s.mapInfo.erase nId} (stray.erase nId) owed := by
  obtain ⟨fits,random,addrs,triedKnown,newKnown,strayKnown,owedKnown,once,triedCount,newCount,newSize,triedSize⟩ := linked
  have self := fits nId info found
  obtain ⟨untried,zero⟩ := self.strays stays
  have refs := self.refs
  have free : owed ≠ some nId := by
    intro owes
    rw [if_pos owes,zero] at refs
    omega
  have unheld : holders s.vvNew nId = 0 := by
    rw [if_neg free,zero] at refs
    omega
  have unpooled : nId ∉ pooled s.vvTried := by
    intro member
    rw [self.inTried.mpr member] at untried
    contradiction
  have atLast : info.nRandomPos = (s.vRandom.length-1 : Nat) := by
    obtain ⟨y,there,place⟩ := random _ nId last
    obtain rfl := Option.some.inj (found.symm.trans there)
    exact place
  have some' : 0 < s.vRandom.length := by
    have := (List.getElem?_eq_some_iff.mp last).1
    omega
  have early : ∀ i k, s.vRandom[i]? = some k → k ≠ nId → i < s.vRandom.length-1 := by
    intro i k here other
    have low := (List.getElem?_eq_some_iff.mp here).1
    by_contra late
    have end' : i = s.vRandom.length-1 := by omega
    rw [end',last] at here
    exact other (Option.some.inj here).symm
  have dropped : ∀ i, i < s.vRandom.length-1 → s.vRandom.dropLast[i]? = s.vRandom[i]? := by
    intro i low
    rw [List.getElem?_dropLast,if_pos low]
  refine ⟨?_,?_,?_,?_,?_,?_,?_,once,triedCount,?_,newSize,triedSize⟩
  · intro k y there
    obtain ⟨other,there⟩ := erase_some_iff.mp there
    obtain ⟨counted,byAddr,place,back,tries,successes,refs,inTried,tried,new,strays⟩ := fits k y there
    refine ⟨counted,erase_some_iff.mpr ⟨?_,byAddr⟩,place,?_,tries,successes,refs,inTried,tried,?_,fun member => strays (Finset.mem_of_mem_erase member)⟩
    · intro same
      rw [same,self.byAddr] at byAddr
      exact other (Option.some.inj byAddr).symm
    · exact (dropped _ (early _ k back other)).trans back
    · intro no out
      exact new no fun member => out (Finset.mem_erase.mpr ⟨other,member⟩)
  · intro i k here
    have low : i < s.vRandom.length-1 := by
      have := (List.getElem?_eq_some_iff.mp here).1
      rwa [List.length_dropLast] at this
    rw [dropped i low] at here
    obtain ⟨y,there,place⟩ := random i k here
    refine ⟨y,erase_some_iff.mpr ⟨?_,there⟩,place⟩
    rintro rfl
    obtain rfl := Option.some.inj (found.symm.trans there)
    omega
  · intro addr k here
    obtain ⟨different,here⟩ := erase_some_iff.mp here
    obtain ⟨y,there,ip⟩ := addrs addr k here
    refine ⟨y,erase_some_iff.mpr ⟨?_,there⟩,ip⟩
    rintro rfl
    obtain rfl := Option.some.inj (found.symm.trans there)
    exact different ip.symm
  · intro k member
    obtain ⟨y,there⟩ := triedKnown k member
    refine ⟨y,erase_some_iff.mpr ⟨?_,there⟩⟩
    rintro rfl
    exact unpooled member
  · intro b k member
    obtain ⟨y,there⟩ := newKnown b k member
    refine ⟨y,erase_some_iff.mpr ⟨?_,there⟩⟩
    rintro rfl
    have := holders_pos_iff.mpr ⟨b,member⟩
    rw [show holders _ k = 0 from unheld] at this
    exact absurd this (lt_irrefl 0)
  · intro k member
    obtain ⟨other,member⟩ := Finset.mem_erase.mp member
    obtain ⟨y,there⟩ := strayKnown k member
    exact ⟨y,erase_some_iff.mpr ⟨other,there⟩⟩
  · intro k owes
    obtain ⟨y,there⟩ := owedKnown k owes
    refine ⟨y,erase_some_iff.mpr ⟨?_,there⟩⟩
    rintro rfl
    exact free owes
  · show s.nNew+s.nTried+(stray.erase nId).card = (s.vRandom.dropLast.length : Int)
    have one := Finset.card_erase_add_one stays
    rw [List.length_dropLast]
    omega

theorem Linked.dropNew {b : NewBucket} (linked : Linked s stray owed) (found : s.mapInfo[nId]? = some info) (held : nId ∈ s.vvNew b)
    (free : owed ≠ some nId) :
    ∃ after, s.dropNew b nId info = .ok after ∧ Linked after stray owed ∧ after.vvNew = Function.update s.vvNew b ((s.vvNew b).erase nId) := by
  have self := linked.fits nId info found
  have settled : nId ∉ stray := by
    intro member
    have zero := (self.strays member).2
    have some' : 0 < holders s.vvNew nId := holders_pos_iff.mpr ⟨b,held⟩
    have refs := self.refs
    rw [if_neg free] at refs
    omega
  rw [CAddrMan.dropNew]
  by_cases lastOne : info.nRefCount-1 = 0
  · have gone := linked.unrefer found held free (.inr ⟨lastOne,rfl,rfl⟩)
    have low : info.nRandomPos.toNat < s.vRandom.length := (List.getElem?_eq_some_iff.mp self.back).1
    obtain ⟨m,r,swaps,linked',length,atLast,moved⟩ := gone.swap low (show s.vRandom.length-1 < s.vRandom.length by omega)
    have swaps' := @SwapRandom_congr (s.setInfo nId {info with nRefCount := info.nRefCount-1}) _ _ _ m r swaps rfl rfl
    obtain ⟨pos,there⟩ := moved nId _ (insert_self _ _)
    have end' : r[r.length-1]? = some nId := by
      rw [length]
      exact atLast.trans self.back
    have removed := linked'.remove there (Finset.mem_insert_self ..) end'
    rw [Finset.erase_insert settled] at removed
    dsimp only
    rw [if_pos lastOne,if_neg (not_lt.mpr self.place)]
    rw [show (s.setInfo nId {info with nRefCount := info.nRefCount-1}).vRandom.length-1 = s.vRandom.length-1 from rfl,swaps']
    exact ⟨_,rfl,removed,rfl⟩
  · dsimp only
    rw [if_neg lastOne]
    exact ⟨_,rfl,linked.unrefer found held free (.inl ⟨lastOne,rfl,rfl⟩),rfl⟩

theorem firstTerrible_ok {ids : List Int} (known : ∀ k ∈ ids, ∃ info, s.mapInfo[k]? = some info) (now : Nat → Int) :
    ∃ found, s.firstTerrible now ids = .ok found ∧ ∀ k info, found = some (k,info) → k ∈ ids ∧ s.mapInfo[k]? = some info := by
  induction ids generalizing now with
  | nil => exact ⟨none,rfl,nofun⟩
  | cons k rest ih =>
    obtain ⟨info,there⟩ := known k (List.mem_cons_self ..)
    rw [firstTerrible,there]
    by_cases terrible : info.IsTerrible (now 0) = true
    · refine ⟨some (k,info),if_pos terrible,?_⟩
      intro l y same
      obtain ⟨rfl,rfl⟩ := Prod.mk.inj (Option.some.inj same)
      exact ⟨List.mem_cons_self ..,there⟩
    · obtain ⟨found,ok,inside⟩ := ih (fun l member => known l (List.mem_cons_of_mem k member)) fun i => now (i+1)
      refine ⟨found,(if_neg terrible).trans ok,?_⟩
      intro l y same
      obtain ⟨member,there⟩ := inside l y same
      exact ⟨List.mem_cons_of_mem k member,there⟩

/-- Some entry is taken if one was before, or one of the places that are left was drawn. -/
theorem oldestDrawn_ok {ids : List Int} (known : ∀ k ∈ ids, ∃ info, s.mapInfo[k]? = some info) (n : List Nat) (nI : Nat) {nOldest : Option Int}
    (knownOldest : ∀ k, nOldest = some k → ∃ info, s.mapInfo[k]? = some info) (drawn : nOldest ≠ none ∨ ∃ j < ids.length, nI+j ∈ n) :
    ∃ k, s.oldestDrawn n ids nI nOldest = .ok (some k) ∧ (k ∈ ids ∨ nOldest = some k) := by
  induction ids generalizing nI nOldest with
  | nil =>
    rcases drawn with taken | ⟨j,low,_⟩
    · obtain ⟨k,rfl⟩ := Option.ne_none_iff_exists'.mp taken
      exact ⟨k,rfl,.inr rfl⟩
    · exact absurd low (Nat.not_lt_zero j)
  | cons k rest ih =>
    have knownRest := fun l member => known l (List.mem_cons_of_mem k member)
    obtain ⟨info,there⟩ := known k (List.mem_cons_self ..)
    unfold oldestDrawn
    by_cases here : nI ∈ n
    · rw [if_pos here]
      have taken : ∃ l, s.oldestDrawn n rest (nI+1) (some k) = .ok (some l) ∧ l ∈ k :: rest := by
        have knownThis : ∀ l, some k = some l → ∃ info, s.mapInfo[l]? = some info := by
          intro l same
          obtain rfl := Option.some.inj same
          exact ⟨info,there⟩
        obtain ⟨l,ok,inside⟩ := ih knownRest (nI+1) knownThis (.inl nofun)
        refine ⟨l,ok,?_⟩
        rcases inside with member | same
        · exact List.mem_cons_of_mem k member
        · rw [Option.some.inj same]
          exact List.mem_cons_self ..
      obtain ⟨l,ok,member⟩ := taken
      cases nOldest with
      | none => exact ⟨l,ok,.inl member⟩
      | some old =>
        obtain ⟨oldest,thereOld⟩ := knownOldest old rfl
        dsimp only
        rw [there,thereOld]
        dsimp only
        split
        · exact ⟨l,ok,.inl member⟩
        · obtain ⟨l,ok,inside⟩ := ih knownRest (nI+1) knownOldest (.inl nofun)
          exact ⟨l,ok,inside.imp_left (List.mem_cons_of_mem k)⟩
    · rw [if_neg here]
      have later : nOldest ≠ none ∨ ∃ j < rest.length, nI+1+j ∈ n := by
        refine drawn.imp_right ?_
        rintro ⟨j,low,member⟩
        cases j with
        | zero => exact absurd member here
        | succ j => exact ⟨j,Nat.lt_of_succ_lt_succ low,by rwa [Nat.add_assoc,Nat.add_comm 1 j]⟩
      obtain ⟨l,ok,inside⟩ := ih knownRest (nI+1) knownOldest later
      exact ⟨l,ok,inside.imp_left (List.mem_cons_of_mem k)⟩

theorem Linked.ShrinkNew {b : NewBucket} (linked : Linked s stray owed) (filled : (s.vvNew b).Nonempty) (free : ∀ k ∈ s.vvNew b, owed ≠ some k)
    (now : Nat → Int) (rand : Nat → Nat) :
    ∃ code after, s.ShrinkNew b now rand = .ok (code,after) ∧ Linked after stray owed ∧
      ∃ k ∈ s.vvNew b, after.vvNew = Function.update s.vvNew b ((s.vvNew b).erase k) := by
  have inside : ∀ k, k ∈ (s.vvNew b).sort (· ≤ ·) → k ∈ s.vvNew b := fun k member => (Finset.mem_sort _).mp member
  have known : ∀ k ∈ (s.vvNew b).sort (· ≤ ·), ∃ info, s.mapInfo[k]? = some info := fun k member => linked.newKnown b k (inside k member)
  rw [CAddrMan.ShrinkNew]
  obtain ⟨found,looked,isFound⟩ := firstTerrible_ok known now
  rw [looked]
  cases found with
  | some entry =>
    obtain ⟨k,info⟩ := entry
    obtain ⟨member,there⟩ := isFound k info rfl
    obtain ⟨after,ok,next,sets⟩ := linked.dropNew there (inside k member) (free k (inside k member))
    dsimp only
    rw [ok]
    exact ⟨0,after,rfl,next,k,inside k member,sets⟩
  | none =>
    have some' : 0 < ((s.vvNew b).sort (· ≤ ·)).length := by
      rw [Finset.length_sort]
      exact filled.card_pos
    have first : GetRandInt ((s.vvNew b).sort (· ≤ ·)).length (rand 0) ∈
        (List.range 4).map fun i => GetRandInt ((s.vvNew b).sort (· ≤ ·)).length (rand i) :=
      List.mem_map.mpr ⟨0,List.mem_range.mpr (by decide),rfl⟩
    have low : GetRandInt ((s.vvNew b).sort (· ≤ ·)).length (rand 0) < ((s.vvNew b).sort (· ≤ ·)).length := by
      rw [GetRandInt,if_neg (Nat.pos_iff_ne_zero.mp some')]
      exact Nat.mod_lt _ some'
    have noOldest : ∀ k : Int, none = some k → ∃ info, s.mapInfo[k]? = some info := fun k absent => absurd absent (Option.some_ne_none k).symm
    obtain ⟨k,drawn,member⟩ := oldestDrawn_ok known _ 0 noOldest (.inr ⟨_,low,by rw [Nat.zero_add]; exact first⟩)
    have member := inside k (member.resolve_right (Option.some_ne_none k).symm)
    obtain ⟨info,there⟩ := linked.newKnown b k member
    obtain ⟨after,ok,next,sets⟩ := linked.dropNew there member (free k member)
    dsimp only
    rw [drawn]
    dsimp only
    rw [there]
    dsimp only
    rw [ok]
    exact ⟨1,after,rfl,next,k,member,sets⟩

/-- The end of `Add_`, from an entry that is new, or a stray that is now counted as new. -/
theorem Linked.addToNew (rules : AddrRules) (linked : Linked s stray none) (found : s.mapInfo[nId]? = some info) (untried : info.fInTried = false)
    (low : info.nRefCount < ADDRMAN_NEW_BUCKETS_PER_ADDRESS) {n : Int} (count : n+(stray.erase nId).card = s.nNew+stray.card)
    (source : CNetAddr) (now : Nat → Int) (rand : Nat → Nat) :
    ∃ after, ({s with nNew := n} : CAddrMan).addToNew rules nId info source now rand = .ok after ∧ Linked after (stray.erase nId) none := by
  rw [CAddrMan.addToNew]
  dsimp only
  by_cases here : nId ∈ s.vvNew (info.GetNewBucket rules source)
  · rw [if_pos here]
    have settled : nId ∉ stray := by
      intro member
      have self := linked.fits nId info found
      have zero := (self.strays member).2
      have refs := self.refs
      have some' : 0 < holders s.vvNew nId := holders_pos_iff.mpr ⟨_,here⟩
      rw [if_neg not_owed] at refs
      omega
    rw [Finset.erase_eq_of_notMem settled] at count ⊢
    obtain rfl : n = s.nNew := by omega
    exact ⟨s,rfl,linked⟩
  · rw [if_neg here]
    have referred := linked.refer found untried low count
    rw [show (({s with nNew := n} : CAddrMan).setInfo nId {info with nRefCount := info.nRefCount+1}).vvNew = s.vvNew from rfl]
    by_cases full : (s.vvNew (info.GetNewBucket rules source)).card = ADDRMAN_NEW_BUCKET_SIZE
    · have filled : (s.vvNew (info.GetNewBucket rules source)).Nonempty := by
        rw [← Finset.card_pos,full]
        decide
      have free : ∀ k ∈ s.vvNew (info.GetNewBucket rules source), some nId ≠ some k := by
        intro k member same
        obtain rfl := Option.some.inj same
        exact here member
      obtain ⟨code,after,shrunk,next,k,member,sets⟩ := referred.ShrinkNew filled free now rand
      have less : (after.vvNew (info.GetNewBucket rules source)) = (s.vvNew (info.GetNewBucket rules source)).erase k := by
        rw [sets]
        exact Function.update_self ..
      have room : (after.vvNew (info.GetNewBucket rules source)).card < ADDRMAN_NEW_BUCKET_SIZE := by
        rw [less,← full]
        exact Finset.card_erase_lt_of_mem member
      have out : nId ∉ after.vvNew (info.GetNewBucket rules source) := by
        rw [less]
        exact fun inside => here (Finset.mem_of_mem_erase inside)
      have shrinks : (({s with nNew := n} : CAddrMan).setInfo nId {info with nRefCount := info.nRefCount+1}).ShrinkNew
          (info.GetNewBucket rules source) now rand = .ok (code,after) := shrunk
      rw [if_pos full,shrinks]
      exact ⟨_,rfl,next.insertNew out room⟩
    · rw [if_neg full]
      exact ⟨_,rfl,referred.insertNew here (Nat.lt_of_le_of_ne (linked.newSize _) full)⟩

theorem Find_some {addr : CNetAddr} (found : s.Find addr = some (nId,info)) : s.mapInfo[nId]? = some info := by
  obtain ⟨k,_,there⟩ := Option.bind_eq_some_iff.mp found
  obtain ⟨y,entry,same⟩ := Option.map_eq_some_iff.mp there
  obtain ⟨rfl,rfl⟩ := Prod.mk.inj same
  exact entry

theorem Linked.Find_none (linked : Linked s stray owed) {addr : CNetAddr} (absent : s.Find addr = none) : s.mapAddr[addr]? = none := by
  by_contra there
  obtain ⟨k,here⟩ := Option.ne_none_iff_exists'.mp there
  obtain ⟨info,found,_⟩ := linked.addrs addr k here
  rw [Find,here,Option.bind_some,found] at absent
  contradiction

theorem Linked.Add_ (rules : AddrRules) (linked : Linked s ∅ none) (addr : CAddress) (source : CNetAddr) (nTimePenalty : Int) (now : Nat → Int)
    (rand : Nat → Nat) : ∃ fRet after, s.Add_ rules addr source nTimePenalty now rand = .ok (fRet,after) ∧ Linked after ∅ none := by
  rw [CAddrMan.Add_]
  split
  · exact ⟨false,s,rfl,linked⟩
  · cases looked : s.Find addr.ip with
    | some entry =>
      obtain ⟨nId,info⟩ := entry
      have found := Find_some looked
      dsimp only
      generalize timed : (if addr.nTime ≠ 0 ∧ (info.nTime = 0 ∨ (info.nTime.toNat : Int) < _) then _ else info) = info'
      have alike : Alike info {info' with nServices := info'.nServices ||| addr.nServices} := by
        subst timed
        split_ifs <;> exact ⟨rfl,rfl,rfl,rfl,id,id,id⟩
      have touched := linked.touch found alike
      have found' : (s.setInfo nId {info' with nServices := info'.nServices ||| addr.nServices}).mapInfo[nId]? = some _ := insert_self _ _
      generalize s.setInfo nId {info' with nServices := info'.nServices ||| addr.nServices} = t at touched found'
      split
      · exact ⟨false,t,rfl,touched⟩
      · split
        · exact ⟨false,t,rfl,touched⟩
        next untried =>
          split
          · exact ⟨false,t,rfl,touched⟩
          next notMax =>
            split
            · exact ⟨false,t,rfl,touched⟩
            · have untried := Bool.eq_false_iff.mpr untried
              have bound := ((touched.fits nId _ found').new untried (Finset.notMem_empty nId)).2
              obtain ⟨after,ok,next⟩ := touched.addToNew rules found' untried (lt_of_le_of_ne bound notMax) (n := t.nNew) rfl source
                (fun i => now (i+1)) fun i => rand (i+1)
              rw [show ({t with nNew := t.nNew} : CAddrMan) = t from rfl] at ok
              rw [ok]
              exact ⟨false,after,rfl,next⟩
    | none =>
      have created := linked.create addr source (linked.Find_none looked)
      dsimp only
      have found : (s.Create addr source).2.2.mapInfo[s.nIdCount]? = some (s.Create addr source).2.1 := insert_self _ _
      generalize time : UInt32.ofInt (max 0 _) = nTime
      have alike : Alike (s.Create addr source).2.1 {(s.Create addr source).2.1 with nTime := nTime} := ⟨rfl,rfl,rfl,rfl,id,id,id⟩
      have touched := created.touch found alike
      have count : s.nNew+1+((({s.nIdCount} : Finset Int).erase s.nIdCount).card : Int) = s.nNew+(({s.nIdCount} : Finset Int).card : Int) := by
        rw [Finset.erase_singleton,Finset.card_empty,Finset.card_singleton]
        omega
      obtain ⟨after,ok,next⟩ := touched.addToNew rules (insert_self _ _) rfl (show (0 : Int) < 4 by decide) (n := s.nNew+1) count source now rand
      rw [Finset.erase_singleton] at next
      refine ⟨true,after,?_,next⟩
      exact congrArg (Except.map fun s => (true,s)) ok

theorem Linked.Attempt_ (linked : Linked s ∅ none) (addr : CService) {nTime : Int} (later : 0 ≤ nTime) : Linked (s.Attempt_ addr nTime) ∅ none := by
  rw [CAddrMan.Attempt_]
  cases looked : s.Find addr.ip with
  | none => exact linked
  | some entry =>
    obtain ⟨nId,info⟩ := entry
    dsimp only
    split
    · exact linked
    · exact linked.touch (Find_some looked) ⟨rfl,rfl,rfl,rfl,fun _ => later,id,id⟩

theorem Linked.Connected_ (linked : Linked s ∅ none) (addr : CService) (nTime : Int) : Linked (s.Connected_ addr nTime) ∅ none := by
  rw [CAddrMan.Connected_]
  cases looked : s.Find addr.ip with
  | none => exact linked
  | some entry =>
    obtain ⟨nId,info⟩ := entry
    dsimp only
    split
    · exact linked
    · split
      · exact linked.touch (Find_some looked) ⟨rfl,rfl,rfl,rfl,id,id,id⟩
      · exact linked

theorem Linked.shuffled {rand : Nat → Nat} {turns n : Nat} (linked : Linked s ∅ none) (low : turns+n ≤ s.vRandom.length) :
    ∃ vAddr after, CAddrMan.shuffled rand turns n s = .ok (vAddr,after) ∧ Linked after ∅ none := by
  induction turns generalizing n s with
  | zero => exact ⟨[],s,rfl,linked⟩
  | succ turns ih =>
    have draw : GetRandInt (s.vRandom.length-n) (rand n)+n < s.vRandom.length := by
      have some' : s.vRandom.length-n ≠ 0 := by omega
      rw [GetRandInt,if_neg some']
      have := Nat.mod_lt (rand n) (Nat.pos_of_ne_zero some')
      omega
    obtain ⟨m,r,swaps,next,length,_,_⟩ := linked.swap (show n < s.vRandom.length by omega) draw
    obtain ⟨nId,here⟩ : ∃ nId, r[n]? = some nId := ⟨_,List.getElem?_eq_getElem (by omega)⟩
    obtain ⟨info,found,_⟩ := next.random n nId here
    obtain ⟨vAddr,after,ok,last⟩ := ih (n := n+1) next (by show turns+(n+1) ≤ r.length; omega)
    rw [CAddrMan.shuffled,swaps]
    dsimp only
    rw [here,Option.bind_some,found]
    dsimp only
    rw [ok]
    exact ⟨_,after,rfl,last⟩

theorem Linked.GetAddr_ (linked : Linked s ∅ none) (rand : Nat → Nat) : ∃ vAddr after, s.GetAddr_ rand = .ok (vAddr,after) ∧ Linked after ∅ none := by
  refine linked.shuffled ?_
  have : ADDRMAN_GETADDR_MAX_PCT*s.vRandom.length/100 ≤ s.vRandom.length := by
    rw [ADDRMAN_GETADDR_MAX_PCT]
    omega
  omega

theorem selectFrom_ok {bucket : Nat → List Int} (known : ∀ n, ∀ k ∈ bucket n, ∃ info, s.mapInfo[k]? = some info) (tries : List SelectTry) :
    ∃ addr, s.selectFrom bucket tries = .ok addr := by
  induction tries with
  | nil => exact ⟨none,rfl⟩
  | cons t tries ih =>
    rw [selectFrom]
    by_cases empty : (bucket t.nBucket).length = 0
    · rw [if_pos empty]
      exact ih
    · have low : GetRandInt (bucket t.nBucket).length t.nPos < (bucket t.nBucket).length := by
        rw [GetRandInt,if_neg empty]
        exact Nat.mod_lt _ (Nat.pos_of_ne_zero empty)
      obtain ⟨info,found⟩ := known t.nBucket _ (List.getElem_mem low)
      rw [if_neg empty,List.getElem?_eq_getElem low]
      dsimp only
      rw [found]
      dsimp only
      split
      · exact ⟨_,rfl⟩
      · exact ih

theorem Linked.Select_ (linked : Linked s stray owed) (fTried : Bool) (tries : List SelectTry) : ∃ addr, s.Select_ fTried tries = .ok addr := by
  rw [CAddrMan.Select_]
  split
  · exact ⟨_,rfl⟩
  · split
    · exact selectFrom_ok (fun n k member => linked.triedKnown k (mem_pooled.mpr ⟨_,member⟩)) tries
    · exact selectFrom_ok (fun n k member => linked.newKnown _ k ((Finset.mem_sort _).mp member)) tries

/-- A new entry leaves all its buckets. -/
theorem Linked.gather (linked : Linked s ∅ none) (found : s.mapInfo[nId]? = some info) (untried : info.fInTried = false) :
    Linked {s.setInfo nId {info with nRefCount := 0} with vvNew := fun b => (s.vvNew b).erase nId,nNew := s.nNew-1} {nId} none := by
  obtain ⟨fits,random,addrs,triedKnown,newKnown,strayKnown,owedKnown,once,triedCount,newCount,newSize,triedSize⟩ := linked
  have holds : ∀ k, holders (fun b => (s.vvNew b).erase nId) k = if k = nId then 0 else holders s.vvNew k := holders_eraseAll nId
  refine ⟨?_,?_,?_,fun k member => found_insert _ (triedKnown k member),fun b k member => found_insert _ (newKnown b k (Finset.mem_of_mem_erase member)),
    ?_,nofun,once,triedCount,?_,fun b => (Finset.card_erase_le ..).trans (newSize b),triedSize⟩
  · intro k y there
    rcases insert_some_iff.mp there with ⟨rfl,rfl⟩ | ⟨other,there⟩
    · obtain ⟨counted,byAddr,place,back,tries,successes,refs,inTried,_,_,_⟩ := fits k info found
      refine ⟨counted,byAddr,place,back,tries,successes,?_,inTried,?_,fun _ out => absurd (Finset.mem_singleton_self k) out,fun _ => ⟨untried,rfl⟩⟩
      · show (0 : Int) = holders (fun b => (s.vvNew b).erase k) k+0
        rw [holds,if_pos rfl]
        rfl
      · intro yes
        rw [show info.fInTried = true from yes] at untried
        contradiction
    · obtain ⟨counted,byAddr,place,back,tries,successes,refs,inTried,tried,new,_⟩ := fits k y there
      refine ⟨counted,byAddr,place,back,tries,successes,?_,inTried,tried,fun no _ => new no (Finset.notMem_empty k),?_⟩
      · show y.nRefCount = holders (fun b => (s.vvNew b).erase nId) k+_
        rw [holds,if_neg other]
        exact refs
      · exact fun member => absurd (Finset.mem_singleton.mp member) other
  · exact fun i k here => exists_replace found (fun place => place) (random i k here)
  · exact fun addr k here => exists_replace found (fun same => same) (addrs addr k here)
  · intro k member
    obtain rfl := Finset.mem_singleton.mp member
    exact ⟨_,insert_self _ _⟩
  · show s.nNew-1+s.nTried+(({nId} : Finset Int).card : Int) = s.vRandom.length
    rw [Finset.card_singleton]
    rw [Finset.card_empty] at newCount
    omega

/-- A stray goes to a tried bucket that has room. -/
theorem Linked.promote {b : TriedBucket} (linked : Linked s {nId} none) (found : s.mapInfo[nId]? = some info) (succeeded : info.nLastSuccess ≠ 0)
    (room : (s.vvTried b).length < ADDRMAN_TRIED_BUCKET_SIZE) :
    Linked {s.setInfo nId {info with fInTried := true} with
      vvTried := Function.update s.vvTried b (s.vvTried b ++ [nId])
      nTried := s.nTried+1} ∅ none := by
  obtain ⟨fits,random,addrs,triedKnown,newKnown,strayKnown,owedKnown,once,triedCount,newCount,newSize,triedSize⟩ := linked
  obtain ⟨untried,zero⟩ := (fits nId info found).strays (Finset.mem_singleton_self nId)
  have out : nId ∉ pooled s.vvTried := by
    intro member
    rw [(fits nId info found).inTried.mpr member] at untried
    contradiction
  have more : pooled (Function.update s.vvTried b (s.vvTried b ++ [nId])) = nId ::ₘ pooled s.vvTried := by
    have sum := @pooled_update Int TriedBucket _ s.vvTried b _ (s.vvTried b ++ [nId])
    rw [← Multiset.coe_add,← add_assoc,add_right_comm] at sum
    have split := add_right_cancel sum
    rw [split,add_comm]
    rfl
  refine ⟨?_,?_,?_,?_,fun b k member => found_insert _ (newKnown b k member),nofun,nofun,?_,?_,?_,newSize,?_⟩
  · intro k y there
    rcases insert_some_iff.mp there with ⟨rfl,rfl⟩ | ⟨other,there⟩
    · obtain ⟨counted,byAddr,place,back,tries,successes,refs,_,_,_,_⟩ := fits k info found
      refine ⟨counted,byAddr,place,back,tries,successes,refs,?_,fun _ => ⟨zero,succeeded⟩,nofun,nofun⟩
      show _ ↔ k ∈ pooled (Function.update s.vvTried b (s.vvTried b ++ [k]))
      rw [more]
      exact ⟨fun _ => Multiset.mem_cons_self ..,fun _ => rfl⟩
    · obtain ⟨counted,byAddr,place,back,tries,successes,refs,inTried,tried,new,_⟩ := fits k y there
      refine ⟨counted,byAddr,place,back,tries,successes,refs,?_,tried,fun no _ => new no fun member => other (Finset.mem_singleton.mp member),nofun⟩
      show _ ↔ k ∈ pooled (Function.update s.vvTried b (s.vvTried b ++ [nId]))
      rw [more,inTried,Multiset.mem_cons,or_iff_right other]
  · exact fun i k here => exists_replace found (fun place => place) (random i k here)
  · exact fun addr k here => exists_replace found (fun same => same) (addrs addr k here)
  · intro k member
    rw [show pooled _ = _ from more] at member
    rcases Multiset.mem_cons.mp member with rfl | member
    · exact ⟨_,insert_self _ _⟩
    · exact found_insert _ (triedKnown k member)
  · rw [show pooled _ = _ from more]
    exact Multiset.nodup_cons.mpr ⟨out,once⟩
  · rw [show pooled _ = _ from more,Multiset.card_cons]
    show s.nTried+1 = _
    push_cast
    omega
  · show s.nNew+(s.nTried+1)+((∅ : Finset Int).card : Int) = s.vRandom.length
    rw [Finset.card_empty]
    rw [Finset.card_singleton] at newCount
    omega
  · intro c
    by_cases here : c = b
    · subst here
      show (Function.update s.vvTried c _ c).length ≤ _
      rw [Function.update_self,List.length_append,List.length_singleton]
      exact room
    · show (Function.update s.vvTried b _ c).length ≤ _
      rw [Function.update_of_ne here]
      exact triedSize c

/-- The order within a tried bucket does not matter. -/
theorem Linked.reorder {b : TriedBucket} (linked : Linked s stray owed) {vTried : List Int} (same : vTried.Perm (s.vvTried b)) :
    Linked {s with vvTried := Function.update s.vvTried b vTried} stray owed := by
  obtain ⟨fits,random,addrs,triedKnown,newKnown,strayKnown,owedKnown,once,triedCount,newCount,newSize,triedSize⟩ := linked
  have pool : pooled (Function.update s.vvTried b vTried) = pooled s.vvTried := by
    have sum := @pooled_update Int TriedBucket _ s.vvTried b _ vTried
    rw [Multiset.coe_eq_coe.mpr same] at sum
    exact add_right_cancel sum
  refine ⟨?_,random,addrs,?_,newKnown,strayKnown,owedKnown,?_,?_,newCount,newSize,?_⟩
  · intro k y there
    obtain ⟨counted,byAddr,place,back,tries,successes,refs,inTried,tried,new,strays⟩ := fits k y there
    refine ⟨counted,byAddr,place,back,tries,successes,refs,?_,tried,new,strays⟩
    rw [show pooled _ = _ from pool]
    exact inTried
  · intro k member
    rw [show pooled _ = _ from pool] at member
    exact triedKnown k member
  · rw [show pooled _ = _ from pool]
    exact once
  · rw [show pooled _ = _ from pool]
    exact triedCount
  · intro c
    by_cases here : c = b
    · subst here
      show (Function.update s.vvTried c _ c).length ≤ _
      rw [Function.update_self,same.length_eq]
      exact triedSize c
    · show (Function.update s.vvTried b _ c).length ≤ _
      rw [Function.update_of_ne here]
      exact triedSize c

/-- A place is picked unless the bucket is empty. -/
theorem Linked.SelectTried {b : TriedBucket} (linked : Linked s stray owed) (filled : 0 < (s.vvTried b).length) (rand : Nat → Nat) :
    ∃ vTried nPos, s.SelectTried b rand = .ok (some nPos,{s with vvTried := Function.update s.vvTried b vTried}) ∧
      vTried.Perm (s.vvTried b) ∧ nPos < vTried.length := by
  obtain ⟨vTried,_,ok,same,_⟩ := @SelectTried_eq s rand b fun k member => linked.triedKnown k (mem_pooled.mpr ⟨b,member⟩)
  cases least : (inspections rand (s.vvTried b)).argmin fun drawn => s.nLastSuccess drawn.1 with
  | none => exact absurd (List.argmin_eq_none.mp least) (inspections_ne_nil filled)
  | some oldest =>
    rw [least] at ok
    exact ⟨vTried,oldest.2,ok,same,by rw [same.length_eq]; exact Shuffles.mem_draws (List.argmin_mem least)⟩

/-- A stray takes the place of a tried entry, which is a stray then. -/
theorem Linked.exchange {b : TriedBucket} {nPos : Nat} {oldId : Int} {infoOld : CAddrInfo} (linked : Linked s {nId} none)
    (found : s.mapInfo[nId]? = some info) (succeeded : info.nLastSuccess ≠ 0) (here : (s.vvTried b)[nPos]? = some oldId)
    (foundOld : s.mapInfo[oldId]? = some infoOld) :
    Linked {s with
      mapInfo := (s.mapInfo.insert oldId {infoOld with fInTried := false}).insert nId {info with fInTried := true}
      vvTried := Function.update s.vvTried b ((s.vvTried b).set nPos nId)} {oldId} none := by
  obtain ⟨fits,random,addrs,triedKnown,newKnown,strayKnown,owedKnown,once,triedCount,newCount,newSize,triedSize⟩ := linked
  obtain ⟨untried,zero⟩ := (fits nId info found).strays (Finset.mem_singleton_self nId)
  have out : nId ∉ pooled s.vvTried := by
    intro member
    rw [(fits nId info found).inTried.mpr member] at untried
    contradiction
  have inside : oldId ∈ pooled s.vvTried := mem_pooled.mpr ⟨b,List.mem_of_getElem? here⟩
  have wasTried := (fits oldId infoOld foundOld).inTried.mpr inside
  have apart : oldId ≠ nId := by
    rintro rfl
    exact out inside
  have trade := pooled_set here nId
  generalize pool : pooled (Function.update s.vvTried b ((s.vvTried b).set nPos nId)) = tried at trade
  have distinct : (oldId ::ₘ tried).Nodup := by
    rw [trade]
    exact Multiset.nodup_cons.mpr ⟨out,once⟩
  obtain ⟨outOld,once'⟩ := Multiset.nodup_cons.mp distinct
  have mem : ∀ k, k ≠ oldId → (k ∈ tried ↔ k = nId ∨ k ∈ pooled s.vvTried) := by
    intro k other
    rw [← Multiset.mem_cons,← trade,Multiset.mem_cons,or_iff_right other]
  have known : ∀ k : Int, (∃ y, s.mapInfo[k]? = some y) →
      ∃ y, ((s.mapInfo.insert oldId {infoOld with fInTried := false}).insert nId {info with fInTried := true})[k]? = some y :=
    fun k there => found_insert _ (found_insert _ there)
  refine ⟨?_,?_,?_,?_,fun c k member => known k (newKnown c k member),?_,nofun,?_,?_,newCount,newSize,?_⟩
  · intro k y there
    rcases insert_some_iff.mp there with ⟨rfl,rfl⟩ | ⟨notNew,there⟩
    · obtain ⟨counted,byAddr,place,back,tries,successes,refs,_,_,_,_⟩ := fits k info found
      refine ⟨counted,byAddr,place,back,tries,successes,refs,?_,fun _ => ⟨zero,succeeded⟩,nofun,?_⟩
      · rw [show pooled _ = _ from pool]
        exact ⟨fun _ => (mem k apart.symm).mpr (.inl rfl),fun _ => rfl⟩
      · exact fun member => absurd (Finset.mem_singleton.mp member) apart.symm
    · rcases insert_some_iff.mp there with ⟨rfl,rfl⟩ | ⟨notOld,there⟩
      · obtain ⟨counted,byAddr,place,back,tries,successes,refs,_,tried,_,_⟩ := fits k infoOld foundOld
        refine ⟨counted,byAddr,place,back,tries,successes,refs,?_,nofun,?_,fun _ => ⟨rfl,(tried wasTried).1⟩⟩
        · rw [show pooled _ = _ from pool]
          exact ⟨nofun,fun member => absurd member outOld⟩
        · exact fun _ out => absurd (Finset.mem_singleton_self k) out
      · obtain ⟨counted,byAddr,place,back,tries,successes,refs,inTried,tried,new,_⟩ := fits k y there
        refine ⟨counted,byAddr,place,back,tries,successes,refs,?_,tried,?_,?_⟩
        · rw [show pooled _ = _ from pool,mem k notOld,or_iff_right notNew]
          exact inTried
        · exact fun no _ => new no fun member => notNew (Finset.mem_singleton.mp member)
        · exact fun member => absurd (Finset.mem_singleton.mp member) notOld
  · intro i k there
    refine exists_insert (exists_insert (random i k there) ?_) ?_
    · rintro rfl
      obtain ⟨y,entry,place⟩ := random i k there
      obtain rfl := Option.some.inj (foundOld.symm.trans entry)
      exact place
    · rintro rfl
      obtain ⟨y,entry,place⟩ := random i k there
      obtain rfl := Option.some.inj (found.symm.trans entry)
      exact place
  · intro addr k there
    refine exists_insert (exists_insert (addrs addr k there) ?_) ?_
    · rintro rfl
      obtain ⟨y,entry,same⟩ := addrs addr k there
      obtain rfl := Option.some.inj (foundOld.symm.trans entry)
      exact same
    · rintro rfl
      obtain ⟨y,entry,same⟩ := addrs addr k there
      obtain rfl := Option.some.inj (found.symm.trans entry)
      exact same
  · intro k member
    rw [show pooled _ = _ from pool] at member
    by_cases isOld : k = oldId
    · subst isOld
      exact absurd member outOld
    · rcases (mem k isOld).mp member with rfl | member
      · exact ⟨_,insert_self _ _⟩
      · exact known k (triedKnown k member)
  · intro k member
    obtain rfl := Finset.mem_singleton.mp member
    exact known k ⟨_,foundOld⟩
  · rw [show pooled _ = _ from pool]
    exact once'
  · rw [show pooled _ = _ from pool]
    have count := congrArg Multiset.card trade
    rw [Multiset.card_cons,Multiset.card_cons] at count
    show s.nTried = _
    omega
  · intro c
    by_cases same : c = b
    · subst same
      show (Function.update s.vvTried c _ c).length ≤ _
      rw [Function.update_self,List.length_set]
      exact triedSize c
    · show (Function.update s.vvTried b _ c).length ≤ _
      rw [Function.update_of_ne same]
      exact triedSize c

/-- What a tried entry makes room for is put back among the new ones: into its own bucket,
    or into the one that the other came from. -/
theorem Linked.replaceTried (rules : AddrRules) (linked : Linked s {nId} none) (found : s.mapInfo[nId]? = some info)
    (succeeded : info.nLastSuccess ≠ 0) {nOrigin : NewBucket} (vacated : (s.vvNew nOrigin).card < ADDRMAN_NEW_BUCKET_SIZE) {b : TriedBucket}
    {nPos : Nat} (low : nPos < (s.vvTried b).length) : ∃ after, s.replaceTried rules info nId nOrigin b nPos = .ok after ∧ Linked after ∅ none := by
  have here := List.getElem?_eq_getElem low
  generalize (s.vvTried b)[nPos] = oldId at here
  have inside : oldId ∈ pooled s.vvTried := mem_pooled.mpr ⟨b,List.mem_of_getElem? here⟩
  obtain ⟨infoOld,foundOld⟩ := linked.triedKnown oldId inside
  have selfOld := linked.fits oldId infoOld foundOld
  have zero := (selfOld.tried (selfOld.inTried.mpr inside)).1
  have unheld : ∀ c, oldId ∉ s.vvNew c := by
    intro c member
    have refs := selfOld.refs
    have some' := holders_pos_iff.mpr ⟨c,member⟩
    rw [if_neg not_owed] at refs
    omega
  have apart : oldId ≠ nId := by
    rintro rfl
    obtain rfl := Option.some.inj (found.symm.trans foundOld)
    have untried := (selfOld.strays (Finset.mem_singleton_self _)).1
    rw [selfOld.inTried.mpr inside] at untried
    contradiction
  have exchanged := linked.exchange found succeeded here foundOld
  have foundStray : ((s.mapInfo.insert oldId {infoOld with fInTried := false}).insert nId {info with fInTried := true})[oldId]? =
    some {infoOld with fInTried := false} := insert_other _ apart (insert_self _ _)
  have count : s.nNew+1+((({oldId} : Finset Int).erase oldId).card : Int) = s.nNew+(({oldId} : Finset Int).card : Int) := by
    rw [Finset.erase_singleton,Finset.card_empty,Finset.card_singleton]
    omega
  have referred := exchanged.refer foundStray rfl (by show infoOld.nRefCount < _; rw [zero]; decide) count
  rw [Finset.erase_singleton] at referred
  rw [CAddrMan.replaceTried,here]
  dsimp only
  rw [foundOld]
  dsimp only
  generalize placed : (if ((s.setInfo oldId _).vvNew (infoOld.GetNewBucket rules infoOld.source)).card < ADDRMAN_NEW_BUCKET_SIZE then _ else nOrigin) = place
  have room : (s.vvNew place).card < ADDRMAN_NEW_BUCKET_SIZE := by
    subst placed
    split
    next fits => exact fits
    · exact vacated
  have last := referred.insertNew (unheld place) room
  have same : (s.mapInfo.insert oldId {infoOld with fInTried := false,nRefCount := 1}).insert nId {info with fInTried := true} =
      ((s.mapInfo.insert oldId {infoOld with fInTried := false}).insert nId {info with fInTried := true}).insert oldId
        {infoOld with fInTried := false,nRefCount := infoOld.nRefCount+1} := by
    rw [zero]
    exact insert_back apart ..
  refine ⟨_,rfl,?_⟩
  have whole : ({s with
      mapInfo := (s.mapInfo.insert oldId {infoOld with fInTried := false,nRefCount := 1}).insert nId {info with fInTried := true}
      vvNew := Function.update s.vvNew place (insert oldId (s.vvNew place))
      nNew := s.nNew+1
      vvTried := Function.update s.vvTried b ((s.vvTried b).set nPos nId)} : CAddrMan).Linked ∅ none := by
    rw [same]
    exact last
  exact whole

theorem Linked.toTried (rules : AddrRules) (linked : Linked s {nId} none) (found : s.mapInfo[nId]? = some info)
    (succeeded : info.nLastSuccess ≠ 0) {nOrigin : NewBucket} (vacated : (s.vvNew nOrigin).card < ADDRMAN_NEW_BUCKET_SIZE) (rand : Nat → Nat) :
    ∃ after, s.toTried rules info nId nOrigin rand = .ok after ∧ Linked after ∅ none := by
  rw [CAddrMan.toTried]
  by_cases room : (s.vvTried (info.GetTriedBucket rules)).length < ADDRMAN_TRIED_BUCKET_SIZE
  · dsimp only
    rw [if_pos room]
    exact ⟨_,rfl,linked.promote found succeeded room⟩
  · have filled : 0 < (s.vvTried (info.GetTriedBucket rules)).length := by
      have : 0 < ADDRMAN_TRIED_BUCKET_SIZE := by decide
      omega
    obtain ⟨vTried,nPos,selects,same,low⟩ := linked.SelectTried filled rand
    dsimp only
    rw [if_neg room,selects]
    refine (linked.reorder same).replaceTried rules found succeeded vacated ?_
    show nPos < (Function.update s.vvTried (info.GetTriedBucket rules) vTried (info.GetTriedBucket rules)).length
    rw [Function.update_self]
    exact low

theorem Linked.MakeTried (rules : AddrRules) (linked : Linked s ∅ none) (found : s.mapInfo[nId]? = some info) (untried : info.fInTried = false)
    (succeeded : info.nLastSuccess ≠ 0) {nOrigin : NewBucket} (origin : nId ∈ s.vvNew nOrigin) (rand : Nat → Nat) :
    ∃ after, s.MakeTried rules info nId nOrigin rand = .ok after ∧ Linked after ∅ none := by
  have refs : info.nRefCount-(List.finRange ADDRMAN_NEW_BUCKET_COUNT).countP (fun b => nId ∈ s.vvNew b) = 0 := by
    have self := (linked.fits nId info found).refs
    rw [if_neg not_owed,holders_eq_countP,Int.add_zero] at self
    exact Int.sub_eq_zero_of_eq self
  rw [CAddrMan.MakeTried,if_neg (not_not.mpr origin)]
  dsimp only
  rw [refs,if_neg (not_not.mpr rfl)]
  exact (linked.gather found untried).toTried rules (insert_self _ _) succeeded
    (Nat.lt_of_lt_of_le (Finset.card_erase_lt_of_mem origin) (linked.newSize nOrigin)) rand

theorem Linked.Good_ (rules : AddrRules) (linked : Linked s ∅ none) (addr : CService) {nTime : Int} (later : 0 < nTime) (rand : Nat → Nat) :
    ∃ after, s.Good_ rules addr nTime rand = .ok after ∧ Linked after ∅ none := by
  rw [CAddrMan.Good_]
  cases looked : s.Find addr.ip with
  | none => exact ⟨s,rfl,linked⟩
  | some entry =>
    obtain ⟨nId,info⟩ := entry
    dsimp only
    split
    · exact ⟨s,rfl,linked⟩
    · have touched := linked.touch (Find_some looked)
        (show Alike info {info with nLastSuccess := nTime,nLastTry := nTime,nTime := UInt32.ofInt nTime,nAttempts := 0} from
          ⟨rfl,rfl,rfl,rfl,fun _ => later.le,fun _ => later.le,fun _ => later.ne'⟩)
      split
      · exact ⟨_,rfl,touched⟩
      next untried =>
        split
        · exact ⟨_,rfl,touched⟩
        next nUBucket picked =>
          have origin := List.find?_some picked
          exact touched.MakeTried rules (insert_self _ _) (Bool.eq_false_iff.mpr untried) later.ne' (of_decide_eq_true origin) _

end CAddrMan

/-- Successes come after time zero, attempts not before it. -/
def AddrEvent.Timely : AddrEvent → Prop
  | .Good_ _ nTime _ => 0 < nTime
  | .Attempt_ _ nTime => 0 ≤ nTime
  | _ => True

namespace CAddrMan

theorem Linked.step {rules : AddrRules} {event : AddrEvent} (linked : Linked s ∅ none) (timely : event.Timely) :
    ∃ after, s.step rules event = .ok after ∧ Linked after ∅ none := by
  cases event with
  | Add_ addr source nTimePenalty now rand =>
    obtain ⟨fRet,after,ok,next⟩ := linked.Add_ rules addr source nTimePenalty now rand
    exact ⟨after,by rw [CAddrMan.step,ok]; rfl,next⟩
  | Good_ addr nTime rand => exact linked.Good_ rules addr timely rand
  | Attempt_ addr nTime => exact ⟨_,rfl,linked.Attempt_ addr timely⟩
  | Connected_ addr nTime => exact ⟨_,rfl,linked.Connected_ addr nTime⟩
  | GetAddr_ rand =>
    obtain ⟨vAddr,after,ok,next⟩ := linked.GetAddr_ rand
    exact ⟨after,by rw [CAddrMan.step,ok]; rfl,next⟩
  | Select_ fTried tries =>
    obtain ⟨addr,ok⟩ := linked.Select_ fTried tries
    exact ⟨s,by rw [CAddrMan.step,ok]; rfl,linked⟩

theorem Linked.run {rules : AddrRules} {events : List AddrEvent} (linked : Linked s ∅ none) (timely : ∀ event ∈ events, event.Timely) :
    ∃ after, s.run rules events = .ok after ∧ Linked after ∅ none := by
  induction events generalizing s with
  | nil => exact ⟨s,rfl,linked⟩
  | cons event events ih =>
    obtain ⟨mid,ok,next⟩ := linked.step (timely event (List.mem_cons_self ..))
    obtain ⟨after,ran,last⟩ := ih next fun later member => timely later (List.mem_cons_of_mem event member)
    exact ⟨after,by rw [CAddrMan.run,ok]; exact ran,last⟩

end CAddrMan
end Tetra
