import Mathlib
import Tetra.Maps
import Tetra.Primitives

/-!
The pages that are kept out of swap, each with a count of the ranges of secrets that lie
on it.
-/
namespace Tetra
open Std (ExtTreeMap)
open Maps

/-- `locker` has the pages whose last call was `Lock`; such calls do not stack. -/
structure LockedPageManagerBase where
  locker : Finset UInt64 := ∅
  page_size : UInt64
  page_mask : UInt64
  histogram : ExtTreeMap UInt64 Int32 := .empty

/-- A range of memory: its start and its size. -/
structure MemoryRange where
  p : UInt64
  size : UInt64
deriving DecidableEq

/-- The pages that `for(size_t page = …; page <= end_page; page += page_size)` passes;
    none where it does not come to its end in so many turns. -/
def pagesUpTo (page_size end_page : UInt64) : Nat → UInt64 → Option (List UInt64)
  | 0, _ => none
  | turns+1, page => if page ≤ end_page then (pagesUpTo page_size end_page turns (page+page_size)).map (page :: ·) else some []

namespace LockedPageManagerBase

def new (page_size : UInt64) : Except Reject LockedPageManagerBase :=
  if page_size &&& (page_size-1) = 0 then .ok {page_size,page_mask := ~~~(page_size-1)}
  else .error (.asserts "!(page_size & (page_size-1))")

def pages (s : LockedPageManagerBase) (turns : Nat) (range : MemoryRange) : Option (List UInt64) :=
  let start_page := range.p &&& s.page_mask
  let end_page := (range.p+range.size-1) &&& s.page_mask
  pagesUpTo s.page_size end_page turns start_page

def lockPage (s : LockedPageManagerBase) (page : UInt64) : LockedPageManagerBase :=
  match s.histogram[page]? with
  | none => {s with locker := insert page s.locker,histogram := s.histogram.insert page 1}
  | some count => {s with histogram := s.histogram.insert page (count+1)}

def unlockPage (s : LockedPageManagerBase) (page : UInt64) : Except Reject LockedPageManagerBase :=
  match s.histogram[page]? with
  | none => .error (.asserts "it != histogram.end()")
  | some count =>
    if count-1 = 0 then .ok {s with locker := s.locker.erase page,histogram := s.histogram.erase page}
    else .ok {s with histogram := s.histogram.insert page (count-1)}

def LockRange (turns : Nat) (s : LockedPageManagerBase) (range : MemoryRange) : Option (Except Reject LockedPageManagerBase) :=
  if range.size = 0 then some (.ok s)
  else (s.pages turns range).map fun pages => .ok (pages.foldl lockPage s)

def UnlockRange (turns : Nat) (s : LockedPageManagerBase) (range : MemoryRange) : Option (Except Reject LockedPageManagerBase) :=
  if range.size = 0 then some (.ok s)
  else (s.pages turns range).map fun pages => pages.foldlM unlockPage s

end LockedPageManagerBase

inductive PageCall
  | LockRange (range : MemoryRange)
  | UnlockRange (range : MemoryRange)

def PageCall.range : PageCall → MemoryRange
  | .LockRange range => range
  | .UnlockRange range => range

namespace LockedPageManagerBase

/-- A run of calls; none if one of them does not return. -/
def run (turns : Nat) (s : LockedPageManagerBase) : List PageCall → Option (Except Reject LockedPageManagerBase)
  | [] => some (.ok s)
  | call :: calls =>
    let returned := match call with
      | .LockRange range => s.LockRange turns range
      | .UnlockRange range => s.UnlockRange turns range
    match returned with
    | none => none
    | some (.error e) => some (.error e)
    | some (.ok s) => run turns s calls

end LockedPageManagerBase

/-! ### What is to be locked -/

/-- The ranges that are locked and not yet unlocked; none if a call unlocks another. -/
def outstanding (held : List MemoryRange) : List PageCall → Option (List MemoryRange)
  | [] => some held
  | .LockRange range :: calls => outstanding (range :: held) calls
  | .UnlockRange range :: calls => if range ∈ held then outstanding (held.erase range) calls else none

/-- The page that starts at `page` has a byte of the range on it. -/
def MemoryRange.Covers (page_size : Nat) (range : MemoryRange) (page : UInt64) : Prop :=
  page.toNat%page_size = 0 ∧ ∃ a, range.p.toNat ≤ a ∧ a < range.p.toNat+range.size.toNat ∧ page.toNat ≤ a ∧ a < page.toNat+page_size

theorem MemoryRange.covers_iff (page_size : Nat) (range : MemoryRange) (page : UInt64) : range.Covers page_size page ↔
    page.toNat%page_size = 0 ∧ max range.p.toNat page.toNat < min (range.p.toNat+range.size.toNat) (page.toNat+page_size) := by
  refine and_congr_right fun _ => ⟨?_,fun meets => ⟨max range.p.toNat page.toNat,by omega⟩⟩
  rintro ⟨a,_,_,_,_⟩
  omega

instance (page_size : Nat) (range : MemoryRange) (page : UInt64) : Decidable (range.Covers page_size page) :=
  decidable_of_iff _ (range.covers_iff page_size page).symm

/-- How many of these ranges lie on the page. -/
def coverings (page_size : Nat) (held : List MemoryRange) (page : UInt64) : Nat := held.countP (·.Covers page_size page)

/-! ### The pages of a range -/

/-- The mask takes an address to the start of its page. -/
theorem toNat_mask {k : Nat} (small : k < 64) (x : UInt64) : (x &&& ~~~(UInt64.ofNat (2^k)-1)).toNat = x.toNat/2^k*2^k := by
  have bound : 2^k < 2^64 := Nat.pow_lt_pow_right (by decide) small
  have positive := Nat.two_pow_pos k
  have size : (UInt64.ofNat (2^k)).toNat = 2^k := by rw [UInt64.toNat_ofNat']; exact Nat.mod_eq_of_lt bound
  have low : (UInt64.ofNat (2^k)-1).toNat = 2^k-1 := by
    rw [UInt64.toNat_sub_of_le _ _ (by rw [UInt64.le_iff_toNat_le,size]; exact positive),size]
    rfl
  have mask : (~~~(UInt64.ofNat (2^k)-1)).toNat = 2^64-(2^k-1+1) := by
    rw [UInt64.toNat_not,low]
    show 2^64-1-(2^k-1) = _
    omega
  rw [UInt64.toNat_and,mask]
  apply Nat.eq_of_testBit_eq
  intro i
  rw [Nat.testBit_and,Nat.testBit_two_pow_sub_succ (by omega),Nat.testBit_two_pow_sub_one,Nat.testBit_mul_two_pow,Nat.testBit_div_two_pow]
  by_cases high : k ≤ i
  · have place : i-k+k = i := by omega
    by_cases inside : i < 64
    · simp [high,inside,place,not_lt.mpr high]
    · have none : x.toNat.testBit i = false := Nat.testBit_lt_two_pow (x.toNat_lt.trans_le (Nat.pow_le_pow_right (by decide) (by omega)))
      simp [none,place]
  · simp [high,not_le.mp high]

/-- The loop passes the pages from the first to the last. -/
theorem pagesUpTo_eq {k i j turns : Nat} (fits : (j+1)*2^k < 2^64) (ordered : i ≤ j+1) (enough : j+1-i < turns) :
    pagesUpTo (UInt64.ofNat (2^k)) (UInt64.ofNat (j*2^k)) turns (UInt64.ofNat (i*2^k)) =
      some ((List.range' i (j+1-i)).map fun m => UInt64.ofNat (m*2^k)) := by
  induction turns generalizing i with
  | zero => omega
  | succ turns ih =>
    have value {m : Nat} (low : m ≤ j+1) : (UInt64.ofNat (m*2^k)).toNat = m*2^k := by
      rw [UInt64.toNat_ofNat']
      exact Nat.mod_eq_of_lt ((Nat.mul_le_mul_right _ low).trans_lt fits)
    rw [pagesUpTo]
    by_cases last : i = j+1
    · have past : ¬UInt64.ofNat (i*2^k) ≤ UInt64.ofNat (j*2^k) := by
        rw [UInt64.le_iff_toNat_le,value ordered,value (by omega),last,Nat.add_mul,Nat.one_mul]
        have := Nat.two_pow_pos k
        omega
      rw [if_neg past,last,Nat.sub_self]
      rfl
    · have within : UInt64.ofNat (i*2^k) ≤ UInt64.ofNat (j*2^k) := by
        rw [UInt64.le_iff_toNat_le,value ordered,value (by omega)]
        exact Nat.mul_le_mul_right _ (by omega)
      have next : UInt64.ofNat (i*2^k)+UInt64.ofNat (2^k) = UInt64.ofNat ((i+1)*2^k) := by
        rw [← UInt64.ofNat_add,Nat.add_mul,Nat.one_mul]
      rw [if_pos within,next,ih (by omega) (by omega),show j+1-i = (j+1-(i+1))+1 by omega,List.range'_succ]
      rfl

/-- An aligned page is one of those from the first to the last just where the range has a
    byte on it. -/
theorem MemoryRange.covers_page {k : Nat} {range : MemoryRange} (filled : range.size ≠ 0) (page : UInt64) :
    range.Covers (2^k) page ↔
      ∃ m, range.p.toNat/2^k ≤ m ∧ m ≤ (range.p.toNat+range.size.toNat-1)/2^k ∧ page.toNat = m*2^k := by
  have positive := Nat.two_pow_pos k
  have some' : 0 < range.size.toNat := Nat.pos_of_ne_zero fun none => filled (UInt64.toNat_inj.mp none)
  rw [covers_iff]
  constructor
  · rintro ⟨aligned,meets⟩
    have place : page.toNat/2^k*2^k = page.toNat := Nat.div_mul_cancel (Nat.dvd_of_mod_eq_zero aligned)
    refine ⟨page.toNat/2^k,?_,Nat.div_le_div_right (by omega),place.symm⟩
    apply Nat.le_of_lt_succ
    apply (Nat.div_lt_iff_lt_mul positive).mpr
    rw [Nat.succ_mul,place]
    omega
  · rintro ⟨m,first,last,place⟩
    rw [place]
    refine ⟨Nat.mul_mod_left _ _,?_⟩
    have low : range.p.toNat < (m+1)*2^k := (Nat.div_lt_iff_lt_mul positive).mp (by omega)
    have high : m*2^k ≤ range.p.toNat+range.size.toNat-1 := (Nat.le_div_iff_mul_le positive).mp last
    rw [Nat.add_mul,Nat.one_mul] at low
    omega

namespace LockedPageManagerBase
variable {s : LockedPageManagerBase} {k : Nat}

/-- The sizes of the pages, which no call changes. -/
structure Sized (k : Nat) (s : LockedPageManagerBase) : Prop where
  small : k < 64
  page_size : s.page_size = UInt64.ofNat (2^k)
  page_mask : s.page_mask = ~~~(s.page_size-1)

/-- The pages of a range before the last page of all, each of them once. -/
theorem Sized.pages (sized : Sized k s) {range : MemoryRange} (filled : range.size ≠ 0)
    (early : range.p.toNat+range.size.toNat ≤ 2^64-2^k) {turns : Nat} (enough : 2^64 ≤ turns) :
    ∃ pages, s.pages turns range = some pages ∧ pages.Nodup ∧ ∀ page, page ∈ pages ↔ range.Covers (2^k) page := by
  obtain ⟨small,page_size,page_mask⟩ := sized
  have positive := Nat.two_pow_pos k
  have bound : 2^k ≤ 2^63 := Nat.pow_le_pow_right (by decide) (by omega)
  have some' : 0 < range.size.toNat := Nat.pos_of_ne_zero fun none => filled (UInt64.toNat_inj.mp none)
  have start : range.p &&& s.page_mask = UInt64.ofNat (range.p.toNat/2^k*2^k) := by
    rw [page_mask,page_size]
    apply UInt64.toNat_inj.mp
    rw [toNat_mask small,UInt64.toNat_ofNat',Nat.mod_eq_of_lt ((Nat.div_mul_le_self _ _).trans_lt range.p.toNat_lt)]
  have last : (range.p+range.size-1).toNat = range.p.toNat+range.size.toNat-1 := by
    have sum : (range.p+range.size).toNat = range.p.toNat+range.size.toNat := by rw [UInt64.toNat_add]; exact Nat.mod_eq_of_lt (by omega)
    rw [UInt64.toNat_sub_of_le _ _ (by rw [UInt64.le_iff_toNat_le,sum]; exact Nat.add_pos_right _ some'),sum]
    rfl
  have stop : (range.p+range.size-1) &&& s.page_mask = UInt64.ofNat ((range.p.toNat+range.size.toNat-1)/2^k*2^k) := by
    rw [page_mask,page_size]
    apply UInt64.toNat_inj.mp
    rw [toNat_mask small,last,UInt64.toNat_ofNat',Nat.mod_eq_of_lt ((Nat.div_mul_le_self _ _).trans_lt (by omega))]
  have ordered : range.p.toNat/2^k ≤ (range.p.toNat+range.size.toNat-1)/2^k := Nat.div_le_div_right (by omega)
  have under : (range.p.toNat+range.size.toNat-1)/2^k*2^k ≤ range.p.toNat+range.size.toNat-1 := Nat.div_mul_le_self _ _
  have fits : ((range.p.toNat+range.size.toNat-1)/2^k+1)*2^k < 2^64 := by
    rw [Nat.add_mul,Nat.one_mul]
    omega
  have few : (range.p.toNat+range.size.toNat-1)/2^k+1 ≤ ((range.p.toNat+range.size.toNat-1)/2^k+1)*2^k := Nat.le_mul_of_pos_right _ positive
  have covers := MemoryRange.covers_page (k := k) filled
  rw [LockedPageManagerBase.pages,start,stop,page_size]
  generalize range.p.toNat/2^k = i at ordered covers
  generalize (range.p.toNat+range.size.toNat-1)/2^k = j at ordered fits few covers
  have value {m : Nat} (low : m ≤ j) : (UInt64.ofNat (m*2^k)).toNat = m*2^k := by
    rw [UInt64.toNat_ofNat']
    exact Nat.mod_eq_of_lt ((Nat.mul_le_mul_right _ (by omega)).trans_lt fits)
  refine ⟨_,pagesUpTo_eq fits (by omega) (by omega),?_,fun page => ?_⟩
  · apply List.Nodup.map_on
    · intro m inside m' inside' same
      rw [List.mem_range'_1] at inside inside'
      have equal := congrArg UInt64.toNat same
      rw [value (by omega),value (by omega)] at equal
      exact Nat.eq_of_mul_eq_mul_right positive equal
    · exact List.nodup_range'
  · rw [covers,List.mem_map]
    constructor
    · rintro ⟨m,inside,rfl⟩
      rw [List.mem_range'_1] at inside
      exact ⟨m,inside.1,by omega,value (by omega)⟩
    · rintro ⟨m,first,last,place⟩
      refine ⟨m,List.mem_range'_1.mpr ⟨first,by omega⟩,UInt64.toNat_inj.mp ?_⟩
      rw [value last,place]

/-! ### The counts -/

/-- The histogram has these counts, in the width of an `int`, and the pages that have one
    are locked. -/
structure Counts (count : UInt64 → Nat) (s : LockedPageManagerBase) : Prop where
  histogram : ∀ page, s.histogram[page]? = if count page = 0 then none else some (Int32.ofNat (count page))
  locker : ∀ page, page ∈ s.locker ↔ count page ≠ 0

variable {count : UInt64 → Nat} {page : UInt64}

/-- A count that changes with its entry. -/
theorem Counts.update (counts : Counts count s) {t : LockedPageManagerBase} {n : Nat}
    (here : t.histogram[page]? = if n = 0 then none else some (Int32.ofNat n)) (others : ∀ q, page ≠ q → t.histogram[q]? = s.histogram[q]?)
    (locked : page ∈ t.locker ↔ n ≠ 0) (otherLocked : ∀ q, page ≠ q → (q ∈ t.locker ↔ q ∈ s.locker)) : Counts (Function.update count page n) t where
  histogram q := by
    by_cases same : page = q
    · subst same
      rw [Function.update_self,here]
    · rw [Function.update_of_ne (Ne.symm same),others q same,counts.histogram]
  locker q := by
    by_cases same : page = q
    · subst same
      rw [Function.update_self,locked]
    · rw [Function.update_of_ne (Ne.symm same),otherLocked q same,counts.locker]

theorem Counts.lockPage (counts : Counts count s) (page : UInt64) : Counts (Function.update count page (count page+1)) (s.lockPage page) := by
  have here := counts.histogram page
  unfold LockedPageManagerBase.lockPage
  by_cases fresh : count page = 0
  · rw [if_pos fresh] at here
    rw [here]
    refine counts.update ?_ (fun q other => lookup_insert_other other 1) (by simp) fun q other => by simp [Ne.symm other]
    rw [insert_self,fresh]
    rfl
  · rw [if_neg fresh] at here
    rw [here]
    refine counts.update ?_ (fun q other => lookup_insert_other other _) (by simpa [fresh] using counts.locker page) fun _ _ => Iff.rfl
    rw [insert_self,if_neg (Nat.succ_ne_zero _),Int32.ofNat_add]
    rfl

theorem Counts.lockPages (counts : Counts count s) (pages : List UInt64) :
    Counts (fun page => count page+pages.count page) (pages.foldl LockedPageManagerBase.lockPage s) := by
  induction pages generalizing s count with
  | nil => exact counts
  | cons first pages ih =>
    have next := ih (counts.lockPage first)
    have same : (fun page => Function.update count first (count first+1) page+pages.count page) = fun page => count page+(first :: pages).count page := by
      funext page
      by_cases here : page = first
      · simp [here]; omega
      · simp [Function.update_of_ne here,List.count_cons_of_ne (Ne.symm here)]
    rwa [same] at next

/-- A page can be unlocked while its count is one that an `int` holds. -/
theorem Counts.unlockPage (counts : Counts count s) (positive : 0 < count page) (small : count page < 2^31) :
    ∃ t, s.unlockPage page = .ok t ∧ Counts (Function.update count page (count page-1)) t := by
  have here := counts.histogram page
  rw [if_neg positive.ne'] at here
  have less : Int32.ofNat (count page)-1 = Int32.ofNat (count page-1) := by
    have whole : count page = count page-1+1 := by omega
    rw [whole,Int32.ofNat_add]
    simp
  have last : Int32.ofNat (count page-1) = 0 ↔ count page-1 = 0 := by
    constructor
    · intro none
      have value := Int32.toInt_ofNat_of_lt (show count page-1 < 2^31 by omega)
      rw [none] at value
      simpa using value.symm
    · intro none
      rw [none]
      rfl
  unfold LockedPageManagerBase.unlockPage
  rw [here]
  dsimp only
  rw [less]
  by_cases done : count page-1 = 0
  · rw [if_pos (last.mpr done)]
    refine ⟨_,rfl,counts.update ?_ (fun q other => lookup_erase_other other) (by simp [done]) fun q other => by simp [Ne.symm other]⟩
    rw [if_pos done]
    simp
  · rw [if_neg (mt last.mp done)]
    refine ⟨_,rfl,counts.update ?_ (fun q other => lookup_insert_other other _) ?_ fun _ _ => Iff.rfl⟩
    · rw [insert_self,if_neg done]
    · have locked := (counts.locker page).mpr positive.ne'
      simpa [done] using locked

/-- So can pages that are all different. -/
theorem Counts.unlockPages {pages : List UInt64} (counts : Counts count s) (distinct : pages.Nodup)
    (held : ∀ page ∈ pages, 0 < count page ∧ count page < 2^31) :
    ∃ t, pages.foldlM LockedPageManagerBase.unlockPage s = .ok t ∧ Counts (fun page => count page-pages.count page) t := by
  induction pages generalizing s count with
  | nil => exact ⟨s,rfl,counts⟩
  | cons first pages ih =>
    obtain ⟨fresh,rest⟩ := List.nodup_cons.mp distinct
    obtain ⟨positive,small⟩ := held first List.mem_cons_self
    obtain ⟨t,unlocks,less⟩ := counts.unlockPage positive small
    obtain ⟨u,ends,after⟩ := ih less rest fun page member => by
      have other : page ≠ first := fun same => fresh (by rwa [same] at member)
      rw [Function.update_of_ne other]
      exact held page (List.mem_cons_of_mem _ member)
    refine ⟨u,?_,?_⟩
    · rw [List.foldlM_cons,unlocks]
      exact ends
    · have same : (fun page => Function.update count first (count first-1) page-pages.count page) = fun page => count page-(first :: pages).count page := by
        funext page
        by_cases here : page = first
        · simp [here,List.count_eq_zero_of_not_mem fresh]
        · simp [Function.update_of_ne here,List.count_cons_of_ne (Ne.symm here)]
      rwa [same] at after

theorem Sized.lockPages (sized : Sized k s) (pages : List UInt64) : Sized k (pages.foldl LockedPageManagerBase.lockPage s) := by
  induction pages generalizing s with
  | nil => exact sized
  | cons page pages ih =>
    apply ih
    unfold LockedPageManagerBase.lockPage
    split
    · exact ⟨sized.small,sized.page_size,sized.page_mask⟩
    · exact ⟨sized.small,sized.page_size,sized.page_mask⟩

theorem Sized.unlockPages (sized : Sized k s) {pages : List UInt64} {t : LockedPageManagerBase}
    (unlocks : pages.foldlM LockedPageManagerBase.unlockPage s = .ok t) : Sized k t := by
  induction pages generalizing s with
  | nil => exact Except.ok.inj unlocks ▸ sized
  | cons page pages ih =>
    rw [List.foldlM_cons] at unlocks
    cases first : s.unlockPage page with
    | error e => rw [first] at unlocks; contradiction
    | ok u =>
      rw [first] at unlocks
      refine ih ?_ unlocks
      unfold LockedPageManagerBase.unlockPage at first
      split at first
      · contradiction
      · split at first
        · obtain rfl := Except.ok.inj first
          exact ⟨sized.small,sized.page_size,sized.page_mask⟩
        · obtain rfl := Except.ok.inj first
          exact ⟨sized.small,sized.page_size,sized.page_mask⟩

/-! ### Calls -/

variable {held : List MemoryRange} {range : MemoryRange} {turns : Nat}

/-- An empty range lies on no page. -/
theorem not_covers_empty (empty : range.size = 0) (page : UInt64) : ¬range.Covers (2^k) page := by
  rintro ⟨_,a,first,last,_⟩
  rw [empty] at last
  exact absurd last (not_lt.mpr first)

theorem count_pages {pages : List UInt64} (distinct : pages.Nodup) (cover : ∀ page, page ∈ pages ↔ range.Covers (2^k) page) (page : UInt64) :
    pages.count page = if range.Covers (2^k) page then 1 else 0 := by
  simp only [distinct.count,cover]

theorem Counts.LockRange (sized : Sized k s) (counts : Counts (coverings (2^k) held) s) (early : range.p.toNat+range.size.toNat ≤ 2^64-2^k)
    (enough : 2^64 ≤ turns) : ∃ t, s.LockRange turns range = some (.ok t) ∧ Sized k t ∧ Counts (coverings (2^k) (range :: held)) t := by
  unfold LockedPageManagerBase.LockRange
  by_cases empty : range.size = 0
  · have same : coverings (2^k) (range :: held) = coverings (2^k) held := by
      funext page
      exact List.countP_cons_of_neg (by simpa using not_covers_empty empty page)
    exact ⟨s,if_pos empty,sized,same ▸ counts⟩
  · obtain ⟨pages,passes,distinct,cover⟩ := sized.pages empty early enough
    have more : (fun page => coverings (2^k) held page+pages.count page) = coverings (2^k) (range :: held) := by
      funext page
      simp [coverings,List.countP_cons,count_pages distinct cover]
    rw [if_neg empty,passes]
    exact ⟨_,rfl,sized.lockPages pages,more ▸ counts.lockPages pages⟩

theorem Counts.UnlockRange (sized : Sized k s) (counts : Counts (coverings (2^k) held) s) (early : range.p.toNat+range.size.toNat ≤ 2^64-2^k)
    (enough : 2^64 ≤ turns) (member : range ∈ held) (few : ∀ page, coverings (2^k) held page < 2^31) :
    ∃ t, s.UnlockRange turns range = some (.ok t) ∧ Sized k t ∧ Counts (coverings (2^k) (held.erase range)) t := by
  have less (page : UInt64) : coverings (2^k) (held.erase range) page = coverings (2^k) held page-if range.Covers (2^k) page then 1 else 0 := by
    simp [coverings,List.countP_erase,member]
  unfold LockedPageManagerBase.UnlockRange
  by_cases empty : range.size = 0
  · have same : coverings (2^k) (held.erase range) = coverings (2^k) held := by
      funext page
      rw [less,if_neg (not_covers_empty empty page),Nat.sub_zero]
    exact ⟨s,if_pos empty,sized,same ▸ counts⟩
  · obtain ⟨pages,passes,distinct,cover⟩ := sized.pages empty early enough
    have positive : ∀ page ∈ pages, 0 < coverings (2^k) held page ∧ coverings (2^k) held page < 2^31 := fun page inside =>
      ⟨List.countP_pos_iff.mpr ⟨range,member,by simpa using (cover page).mp inside⟩,few page⟩
    obtain ⟨t,unlocks,after⟩ := counts.unlockPages distinct positive
    have same : (fun page => coverings (2^k) held page-pages.count page) = coverings (2^k) (held.erase range) := by
      funext page
      rw [less,count_pages distinct cover]
    rw [if_neg empty,passes]
    exact ⟨t,congrArg some unlocks,sized.unlockPages unlocks,same ▸ after⟩

/-- Every run of calls keeps the counts, while an `int` holds them. -/
theorem Counts.run {calls : List PageCall} {left : List MemoryRange} (sized : Sized k s) (counts : Counts (coverings (2^k) held) s)
    (valid : outstanding held calls = some left) (early : ∀ call ∈ calls, call.range.p.toNat+call.range.size.toNat ≤ 2^64-2^k)
    (few : ∀ before, before <+: calls → ∀ between, outstanding held before = some between → ∀ page, coverings (2^k) between page < 2^31)
    (enough : 2^64 ≤ turns) : ∃ t, s.run turns calls = some (.ok t) ∧ Counts (coverings (2^k) left) t := by
  induction calls generalizing s held with
  | nil =>
    obtain rfl := Option.some.inj valid
    exact ⟨s,rfl,counts⟩
  | cons call calls ih =>
    have later := fun call member => early call (List.mem_cons_of_mem _ member)
    cases call with
    | LockRange range =>
      have now : range.p.toNat+range.size.toNat ≤ 2^64-2^k := early (.LockRange range) List.mem_cons_self
      obtain ⟨t,locks,sizedNext,next⟩ := counts.LockRange sized now enough
      obtain ⟨u,runs,after⟩ := ih sizedNext next valid later fun before early between ends => few (.LockRange range :: before) (by simpa using early) between ends
      exact ⟨u,by simp [LockedPageManagerBase.run,locks,runs],after⟩
    | UnlockRange range =>
      have now : range.p.toNat+range.size.toNat ≤ 2^64-2^k := early (.UnlockRange range) List.mem_cons_self
      rw [outstanding] at valid
      split at valid
      next member =>
        obtain ⟨t,unlocks,sizedNext,next⟩ := counts.UnlockRange sized now enough member (few [] (List.nil_prefix) held rfl)
        obtain ⟨u,runs,after⟩ := ih sizedNext next valid later fun before early between ends =>
          few (.UnlockRange range :: before) (by simpa using early) between (by rw [outstanding,if_pos member,ends])
        exact ⟨u,by simp [LockedPageManagerBase.run,unlocks,runs],after⟩
      · contradiction

theorem new_two_pow (small : k < 64) : ∃ s, new (UInt64.ofNat (2^k)) = .ok s ∧ Sized k s ∧ Counts (coverings (2^k) []) s := by
  have power : UInt64.ofNat (2^k) &&& (UInt64.ofNat (2^k)-1) = 0 := by
    have bound : 2^k < 2^64 := Nat.pow_lt_pow_right (by decide) small
    have size : (UInt64.ofNat (2^k)).toNat = 2^k := by rw [UInt64.toNat_ofNat']; exact Nat.mod_eq_of_lt bound
    have low : (UInt64.ofNat (2^k)-1).toNat = 2^k-1 := by
      rw [UInt64.toNat_sub_of_le _ _ (by rw [UInt64.le_iff_toNat_le,size]; exact Nat.two_pow_pos k),size]
      rfl
    apply UInt64.toNat_inj.mp
    rw [UInt64.toNat_and,low,Nat.and_two_pow_sub_one_eq_mod,size,Nat.mod_self]
    rfl
  refine ⟨_,if_pos power,⟨small,rfl,rfl⟩,fun page => ?_,fun page => ?_⟩
  · simp [coverings]
  · simp [coverings]

/-- The pages that are locked, and their counts, after any calls of which each unlocks what
    is locked, while no page has more ranges on it than an `int` counts. -/
theorem run_outstanding (small : k < 64) {calls : List PageCall} {held : List MemoryRange} (valid : outstanding [] calls = some held)
    (early : ∀ call ∈ calls, call.range.p.toNat+call.range.size.toNat ≤ 2^64-2^k)
    (few : ∀ before, before <+: calls → ∀ between, outstanding [] before = some between → ∀ page, coverings (2^k) between page < 2^31)
    {turns : Nat} (enough : 2^64 ≤ turns) :
    ∃ start s, new (UInt64.ofNat (2^k)) = .ok start ∧ start.run turns calls = some (.ok s) ∧
      (∀ page, page ∈ s.locker ↔ ∃ range ∈ held, range.Covers (2^k) page) ∧
      (∀ page, (s.histogram[page]?).map Int32.toInt = if coverings (2^k) held page = 0 then none else some (coverings (2^k) held page : Int)) ∧
      (held = [] → s.histogram.isEmpty = true) := by
  obtain ⟨start,makes,sized,none⟩ := new_two_pow small
  obtain ⟨s,runs,counts⟩ := none.run sized valid early few enough
  refine ⟨start,s,makes,runs,fun page => ?_,fun page => ?_,?_⟩
  · rw [counts.locker,coverings,← Nat.pos_iff_ne_zero,List.countP_pos_iff]
    simp
  · rw [counts.histogram]
    split
    · rfl
    · rw [Option.map_some,Int32.toInt_ofNat_of_lt (few calls (List.prefix_refl calls) held valid page)]
  · rintro rfl
    apply (isEmpty_iff_getElem? _).mpr
    intro page
    rw [counts.histogram]
    rfl

/-- Every call leaves one range more at most. -/
theorem outstanding_length {calls : List PageCall} {left : List MemoryRange} (valid : outstanding held calls = some left) :
    left.length ≤ held.length+calls.length := by
  induction calls generalizing held with
  | nil =>
    obtain rfl := Option.some.inj valid
    exact Nat.le_add_right _ _
  | cons call calls ih =>
    cases call with
    | LockRange range =>
      have rest := ih valid
      simp only [List.length_cons] at rest ⊢
      omega
    | UnlockRange range =>
      rw [outstanding] at valid
      split at valid
      next member =>
        have rest := ih valid
        rw [List.length_erase_of_mem member] at rest
        rw [List.length_cons]
        omega
      · contradiction

/-- Two ranges that share the page at 4096, of which one is unlocked again. -/
theorem run_outstanding_shared : ∃ start s, new (UInt64.ofNat (2^12)) = .ok start ∧
    start.run (2^64) [.LockRange ⟨4000,200⟩,.LockRange ⟨4096,1⟩,.UnlockRange ⟨4000,200⟩] = some (.ok s) ∧
    (∀ page, page ∈ s.locker ↔ ∃ range ∈ [⟨4096,1⟩], MemoryRange.Covers (2^12) range page) ∧
    (∀ page, (s.histogram[page]?).map Int32.toInt =
      if coverings (2^12) [⟨4096,1⟩] page = 0 then none else some (coverings (2^12) [⟨4096,1⟩] page : Int)) ∧
    ([(⟨4096,1⟩ : MemoryRange)] = [] → s.histogram.isEmpty = true) := by
  refine run_outstanding (by decide) (by decide) (by decide) (fun before early between ends page => ?_) (le_refl _)
  have length := outstanding_length ends
  have short := early.length_le
  have most : coverings (2^12) between page ≤ between.length := List.countP_le_length
  simp only [List.length_cons,List.length_nil] at length short
  omega

/-- One byte, locked again and again. -/
theorem run_locks (sized : Sized k s) {times : Nat} (counts : Counts (coverings (2^k) held) s) (early : range.p.toNat+range.size.toNat ≤ 2^64-2^k)
    (enough : 2^64 ≤ turns) : ∃ t, s.run turns (List.replicate times (.LockRange range)) = some (.ok t) ∧
      outstanding held (List.replicate times (.LockRange range)) = some (List.replicate times range ++ held) ∧
      Counts (coverings (2^k) (List.replicate times range ++ held)) t := by
  induction times generalizing s held with
  | zero => exact ⟨s,rfl,rfl,counts⟩
  | succ times ih =>
    obtain ⟨t,locks,sizedNext,next⟩ := counts.LockRange sized early enough
    obtain ⟨u,runs,left,after⟩ := ih sizedNext next
    have whole : List.replicate times range ++ range :: held = List.replicate (times+1) range ++ held := by
      rw [List.replicate_succ',List.append_assoc,List.singleton_append]
    rw [whole] at left after
    exact ⟨u,by simp [List.replicate_succ,LockedPageManagerBase.run,locks,runs],by rw [List.replicate_succ,outstanding,left],after⟩

theorem locks_counted {times : Nat} (some' : (Int32.ofNat times).toInt ≠ times) :
    ∃ start s held, new (UInt64.ofNat (2^12)) = .ok start ∧ start.run (2^64) (List.replicate times (.LockRange ⟨0,1⟩)) = some (.ok s) ∧
      outstanding [] (List.replicate times (.LockRange ⟨0,1⟩)) = some held ∧ coverings (2^12) held 0 = times ∧
      (s.histogram[(0 : UInt64)]?).map Int32.toInt ≠ some (times : Int) := by
  obtain ⟨start,makes,sized,none⟩ := new_two_pow (show 12 < 64 by decide)
  obtain ⟨s,runs,left,counts⟩ := @run_locks start 12 [] ⟨0,1⟩ (2^64) sized times none (by decide) (le_refl _)
  rw [List.append_nil] at left counts
  have all : coverings (2^12) (List.replicate times ⟨0,1⟩) 0 = times := by
    rw [coverings,List.countP_replicate,if_pos (by decide)]
  refine ⟨start,s,_,makes,runs,left,all,?_⟩
  rw [counts.histogram,all]
  split
  · simp
  · simpa using some'

/-- With 2^31 ranges on a page the count is negative. -/
theorem run_overflow : ∃ start s held, new (UInt64.ofNat (2^12)) = .ok start ∧
    start.run (2^64) (List.replicate (2^31) (.LockRange ⟨0,1⟩)) = some (.ok s) ∧
    outstanding [] (List.replicate (2^31) (.LockRange ⟨0,1⟩)) = some held ∧ coverings (2^12) held 0 = 2^31 ∧
    (s.histogram[(0 : UInt64)]?).map Int32.toInt ≠ some (2^31 : Nat) :=
  locks_counted (by decide)

end LockedPageManagerBase
end Tetra
