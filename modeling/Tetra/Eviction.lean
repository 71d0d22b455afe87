import Mathlib
import Tetra.AddrMan
import Tetra.Shuffles

/-!
Which entry of a full tried bucket has to go: the places that are drawn, the entries
inspected there, and the place that is returned for the oldest of them.
-/
namespace Tetra.CAddrMan
open Shuffles
variable {s : CAddrMan} {rand : Nat → Nat}

/-- `mapInfo[nId].nLastSuccess`. -/
def nLastSuccess (s : CAddrMan) (nId : Int) : Int := ((s.mapInfo[nId]?).map CAddrInfo.nLastSuccess).getD 0

/-- The place drawn in a turn, in a bucket of `size` entries. -/
def drawnPlace (rand : Nat → Nat) (size i : Nat) : Nat := GetRandInt (size-i) (rand i)+i

theorem drawnPlace_bound (rand : Nat → Nat) {size i : Nat} (low : i < size) : i ≤ drawnPlace rand size i ∧ drawnPlace rand size i < size := by
  have left : size-i ≠ 0 := by omega
  have drawn := Nat.mod_lt (rand i) (Nat.pos_of_ne_zero left)
  rw [drawnPlace,GetRandInt,if_neg left]
  omega

/-- What `SelectTried` inspects in a bucket, each entry with the place it was drawn from. -/
def inspections (rand : Nat → Nat) (vTried : List Int) : List (Int × Nat) :=
  draws (drawnPlace rand vTried.length) (min ADDRMAN_TRIED_ENTRIES_INSPECT_ON_EVICT vTried.length) 0 vTried

def inspected (rand : Nat → Nat) (vTried : List Int) : List Int := (inspections rand vTried).map Prod.fst

/-- `nId` is one of the inspected entries, and none of them is older. -/
def Oldest (s : CAddrMan) (inspected : List Int) (nId : Int) : Prop := nId ∈ inspected ∧ ∀ other ∈ inspected, s.nLastSuccess nId ≤ s.nLastSuccess other

/-- The first of the oldest entries was drawn from one of the places in front, in whose turn
    an entry as old was inspected. -/
def DrawnInFront (s : CAddrMan) (rand : Nat → Nat) (vTried : List Int) : Prop :=
  ∃ nId nPos, (inspections rand vTried).argmin (fun drawn => s.nLastSuccess drawn.1) = some (nId,nPos) ∧
    ∃ other, (inspected rand vTried)[nPos]? = some other ∧ s.nLastSuccess other = s.nLastSuccess nId

theorem inspections_ne_nil {vTried : List Int} (filled : 0 < vTried.length) : inspections rand vTried ≠ [] := by
  have turn : min ADDRMAN_TRIED_ENTRIES_INSPECT_ON_EVICT vTried.length = min 3 (vTried.length-1)+1 := by
    rw [ADDRMAN_TRIED_ENTRIES_INSPECT_ON_EVICT]
    omega
  rw [inspections,turn]
  exact draws_ne_nil (drawnPlace_bound rand filled).2

/-- The turns shuffle the front of the bucket, and keep the oldest entry with the place it
    was drawn from. -/
theorem inspect_eq {turns i size : Nat} {vTried : List Int} (length : vTried.length = size) (known : ∀ k ∈ vTried, ∃ info, s.mapInfo[k]? = some info)
    {found : Option (Int × Nat)} (sound : ∀ k nPos, found = some (k,nPos) → ∃ info, s.mapInfo[k]? = some info) :
    s.inspect rand turns i vTried found =
      .ok (shuffle (drawnPlace rand size) (min turns (size-i)) i vTried,(draws (drawnPlace rand size) (min turns (size-i)) i vTried).foldl
        (List.argAux fun drawn oldest => s.nLastSuccess drawn.1 < s.nLastSuccess oldest.1) found) := by
  induction turns generalizing i vTried found with
  | zero => simp [inspect,shuffle,draws]
  | succ turns ih =>
    unfold inspect
    by_cases low : i < vTried.length
    · have place : GetRandInt (vTried.length-i) (rand i)+i = drawnPlace rand size i := by rw [drawnPlace,length]
      have turn : min (turns+1) (size-i) = min turns (size-(i+1))+1 := by omega
      have inside : drawnPlace rand size i < vTried.length := by rw [← place]; exact (drawnPlace_bound rand low).2
      rw [if_neg (not_not.mpr low),turn,shuffle,draws]
      dsimp only
      rw [place]
      generalize drawnPlace rand size i = nPos at inside
      have swapped : swapIn vTried i nPos = (vTried.set nPos vTried[i]).set i vTried[nPos] := by
        simp only [swapIn,List.getElem?_eq_getElem inside,List.getElem?_eq_getElem low]
      have knownNext : ∀ k ∈ swapIn vTried i nPos, ∃ info, s.mapInfo[k]? = some info :=
        fun k member => known k ((swapIn_perm vTried i nPos).mem_iff.mp member)
      obtain ⟨info,here⟩ := known vTried[nPos] (List.getElem_mem inside)
      have taken : ∀ k p, some (vTried[nPos],nPos) = some (k,p) → ∃ info, s.mapInfo[k]? = some info := by
        intro k p same
        obtain ⟨rfl,rfl⟩ := Prod.mk.inj (Option.some.inj same)
        exact ⟨info,here⟩
      rw [List.getElem?_eq_getElem inside,List.getElem?_eq_getElem low]
      dsimp only
      rw [← swapped]
      simp only [Option.toList_some,List.map_cons,List.map_nil,List.singleton_append,List.foldl_cons]
      cases found with
      | none => exact ih (by simpa using length) knownNext taken
      | some oldest =>
        obtain ⟨nOldest,nOldestPos⟩ := oldest
        obtain ⟨infoOldest,there⟩ := sound nOldest nOldestPos rfl
        have age : s.nLastSuccess vTried[nPos] = info.nLastSuccess := by simp [nLastSuccess,here]
        have ageOldest : s.nLastSuccess nOldest = infoOldest.nLastSuccess := by simp [nLastSuccess,there]
        dsimp only
        rw [here,there,List.argAux]
        dsimp only
        rw [age,ageOldest]
        split
        · exact ih (by simpa using length) knownNext taken
        · exact ih (by simpa using length) knownNext sound
    · have none : min (turns+1) (size-i) = 0 := by omega
      rw [if_pos low,none]
      rfl

/-- Where `SelectTried` leaves the bucket, and what it returns. -/
theorem SelectTried_eq {b : TriedBucket} (known : ∀ k ∈ s.vvTried b, ∃ info, s.mapInfo[k]? = some info) :
    ∃ vTried rest, s.SelectTried b rand =
        .ok (((inspections rand (s.vvTried b)).argmin fun drawn => s.nLastSuccess drawn.1).map Prod.snd,
          {s with vvTried := Function.update s.vvTried b vTried}) ∧
      vTried.Perm (s.vvTried b) ∧ vTried = inspected rand (s.vvTried b) ++ rest := by
  have ran := @inspect_eq s rand ADDRMAN_TRIED_ENTRIES_INSPECT_ON_EVICT 0 _ _ rfl known none (by simp)
  obtain ⟨rest,front⟩ := @shuffle_front _ (drawnPlace rand (s.vvTried b).length)
    (min ADDRMAN_TRIED_ENTRIES_INSPECT_ON_EVICT (s.vvTried b).length) 0 (s.vvTried b) fun j _ high => drawnPlace_bound rand (by omega)
  refine ⟨_,rest,?_,shuffle_perm _ 0 _,by simpa [inspected,inspections] using front⟩
  rw [SelectTried,ran]
  rfl

/-- `SelectTried` only permutes the bucket, but it returns the place that the oldest entry
    was drawn from, and the swap has put another entry there. -/
theorem SelectTried_oldest_iff {b : TriedBucket} (known : ∀ k ∈ s.vvTried b, ∃ info, s.mapInfo[k]? = some info) (distinct : (s.vvTried b).Nodup) :
    ∃ vTried found, s.SelectTried b rand = .ok (found,{s with vvTried := Function.update s.vvTried b vTried}) ∧ vTried.Perm (s.vvTried b) ∧
      ((∃ nPos nId, found = some nPos ∧ vTried[nPos]? = some nId ∧ s.Oldest (inspected rand (s.vvTried b)) nId) ↔
        s.DrawnInFront rand (s.vvTried b)) := by
  obtain ⟨vTried,rest,selects,perm,front⟩ := @SelectTried_eq s rand b known
  refine ⟨vTried,_,selects,perm,?_⟩
  have apart : (inspected rand (s.vvTried b)).Disjoint rest := List.disjoint_of_nodup_append (front ▸ perm.nodup_iff.mpr distinct)
  cases least : (inspections rand (s.vvTried b)).argmin fun drawn => s.nLastSuccess drawn.1 with
  | none => simp [DrawnInFront,least]
  | some oldest =>
    obtain ⟨nOldest,nOldestPos⟩ := oldest
    have member : nOldest ∈ inspected rand (s.vvTried b) := List.mem_map_of_mem (f := Prod.fst) (List.argmin_mem least)
    have lowest : ∀ other ∈ inspected rand (s.vvTried b), s.nLastSuccess nOldest ≤ s.nLastSuccess other := by
      intro other drawn
      obtain ⟨pair,inside,rfl⟩ := List.mem_map.mp drawn
      exact List.le_of_mem_argmin (f := fun drawn : Int × Nat => s.nLastSuccess drawn.1) inside least
    constructor
    · rintro ⟨nPos,nId,found,here,drawn,older⟩
      obtain rfl : nOldestPos = nPos := by simpa using found
      refine ⟨nOldest,nOldestPos,least,nId,?_,le_antisymm (older nOldest member) (lowest nId drawn)⟩
      rw [front] at here
      by_cases low : nOldestPos < (inspected rand (s.vvTried b)).length
      · rwa [List.getElem?_append_left low] at here
      · rw [List.getElem?_append_right (not_lt.mp low)] at here
        exact absurd (List.mem_of_getElem? here) (apart drawn)
    · rintro ⟨nId,nPos,same,other,here,asOld⟩
      obtain ⟨rfl,rfl⟩ := Prod.mk.inj (Option.some.inj (least.symm.trans same))
      refine ⟨nOldestPos,other,rfl,?_,List.mem_of_getElem? here,fun k drawn => asOld ▸ lowest k drawn⟩
      rw [front,List.getElem?_append_left (List.getElem?_eq_some_iff.mp here).1,here]

/-! A full bucket whose sixth entry is the oldest, and draws of which the first finds it. -/

private def crowded : CAddrMan where
  mapInfo := (List.range 64).foldl (fun mapInfo (k : Nat) =>
    mapInfo.insert (k : Int) {ip := k,port := 8333,nServices := 1,nTime := 0,source := 0,nLastSuccess := if k = 5 then 1 else 100,fInTried := true}) .empty
  vvTried b := if b.val = 0 then (List.range 64).map Int.ofNat else []

private def sixthFirst (i : Nat) : Nat := if i = 0 then 5 else 0

private theorem crowded_known : ∀ k ∈ crowded.vvTried 0, ∃ info, crowded.mapInfo[k]? = some info := by
  have present : ∀ k ∈ crowded.vvTried 0, (crowded.mapInfo[k]?).isSome = true := by decide +kernel
  exact fun k member => Option.isSome_iff_exists.mp (present k member)

/-- The place 5 is returned, where the first entry of the bucket has come to stand. -/
theorem SelectTried_sixth : ∃ vTried, crowded.SelectTried 0 sixthFirst = .ok (some 5,{crowded with vvTried := Function.update crowded.vvTried 0 vTried}) ∧
    vTried[5]? = some 0 ∧ ¬crowded.Oldest (inspected sixthFirst (crowded.vvTried 0)) 0 := by
  have ran : crowded.inspect sixthFirst ADDRMAN_TRIED_ENTRIES_INSPECT_ON_EVICT 0 (crowded.vvTried 0) none =
      .ok ([5,1,2,3,4,0] ++ (List.range 58).map fun (k : Nat) => (k+6 : Int),some (5,5)) := by decide +kernel
  refine ⟨_,by rw [SelectTried,ran]; rfl,rfl,fun oldest => ?_⟩
  have drawn : inspected sixthFirst (crowded.vvTried 0) = [5,1,2,3] := by decide +kernel
  rw [drawn] at oldest
  exact absurd oldest.1 (by decide)

theorem SelectTried_oldest_iff_crowded : ∃ vTried found, crowded.SelectTried 0 sixthFirst =
    .ok (found,{crowded with vvTried := Function.update crowded.vvTried 0 vTried}) ∧ vTried.Perm (crowded.vvTried 0) ∧
      ((∃ nPos nId, found = some nPos ∧ vTried[nPos]? = some nId ∧ crowded.Oldest (inspected sixthFirst (crowded.vvTried 0)) nId) ↔
        crowded.DrawnInFront sixthFirst (crowded.vvTried 0)) :=
  SelectTried_oldest_iff crowded_known (by decide +kernel)

end Tetra.CAddrMan
