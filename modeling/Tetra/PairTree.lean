import Mathlib

/-!
The tree over a row of values in which each node joins two of the row below, and the last
one of an odd row is joined with itself. Its nodes by height and position, its rows, which
leaves stand under a node, and the tree cut off above every part with no wanted leaf.
-/
namespace Tetra.PairTree

variable {α : Type} (op : α → α → α) (leaf : Nat → α) (n : Nat)

/-- How many nodes stand at a height. -/
def width (h : Nat) : Nat := (n+2^h-1)/2^h

def node : Nat → Nat → α
  | 0, pos => leaf pos
  | h+1, pos => op (node h (pos*2)) (if pos*2+1 < width n h then node h (pos*2+1) else node h (pos*2))

def row (h : Nat) : List α := (List.range (width n h)).map (node op leaf n h)

/-- The row above another. -/
def pairs : List α → List α
  | [] => []
  | [a] => [op a a]
  | a :: b :: rest => op a b :: pairs rest

/-- The first height with a single node. -/
def Top (h : Nat) : Prop := width n h ≤ 1 ∧ ∀ low < h, 1 < width n low

/-- The leaves under a node. -/
def under (h pos : Nat) : List Nat := List.range' (pos*2^h) (min ((pos+1)*2^h) n-pos*2^h)

/-! ### Widths -/

@[simp] theorem width_zero : width n 0 = n := by simp [width]

theorem width_succ (h : Nat) : width n (h+1) = (width n h+1)/2 := by
  have positive : 0 < 2^h := Nat.two_pow_pos h
  have more : width n h+1 = (n+2^h-1+2^h)/2^h := (Nat.add_div_right _ positive).symm
  rw [more,Nat.div_div_eq_div_mul,width,Nat.pow_succ]
  congr 1
  omega

theorem width_le {bound h : Nat} (small : n ≤ bound*2^h) : width n h ≤ bound := by
  refine Nat.lt_succ_iff.mp ((Nat.div_lt_iff_lt_mul (Nat.two_pow_pos h)).mpr ?_)
  have positive := Nat.two_pow_pos h
  rw [Nat.succ_mul]
  omega

/-- A position is one of its height when a leaf stands under it. -/
theorem lt_width {h pos : Nat} : pos < width n h ↔ pos*2^h < n := by
  have positive := Nat.two_pow_pos h
  rw [width,Nat.lt_iff_add_one_le,Nat.le_div_iff_mul_le positive,Nat.succ_mul]
  omega

theorem left_lt {h pos : Nat} (within : pos < width n (h+1)) : pos*2 < width n h := by
  rw [width_succ] at within
  omega

/-! ### Rows -/

theorem pairs_map (f : Nat → α) (m : Nat) :
    pairs op ((List.range m).map f) = (List.range ((m+1)/2)).map fun i => op (f (i*2)) (if i*2+1 < m then f (i*2+1) else f (i*2)) := by
  induction m using Nat.twoStepInduction generalizing f with
  | zero => rfl
  | one => rfl
  | more m ih _ =>
    have half : (m+2+1)/2 = (m+1)/2+1 := by omega
    rw [half,List.range_succ_eq_map,List.range_succ_eq_map,List.range_succ_eq_map]
    simp only [List.map_cons,List.map_map,pairs]
    have above := ih fun i => f (i+2)
    congr 1
    refine Eq.trans above ?_
    refine List.map_congr_left fun i _ => ?_
    have twice : (i+1)*2 = i*2+2 := by omega
    simp only [Function.comp_apply,Nat.succ_eq_add_one,twice]
    congr 1
    by_cases right : i*2+1 < m
    · rw [if_pos right,if_pos (by omega)]
    · rw [if_neg right,if_neg (by omega)]

theorem pairs_row (h : Nat) : pairs op (row op leaf n h) = row op leaf n (h+1) := by
  rw [row,pairs_map,row,width_succ]
  rfl

@[simp] theorem row_length (h : Nat) : (row op leaf n h).length = width n h := by simp [row]

theorem row_zero (as : List α) (a : α) : row op (fun i => as[i]?.getD a) as.length 0 = as := by
  refine List.ext_getElem (by simp) fun i inside inside' => ?_
  simp [row,node,List.getElem?_eq_getElem inside']

/-- With a single node the row is the root. -/
theorem row_top {h : Nat} (top : Top n h) (filled : 0 < n) : row op leaf n h = [node op leaf n h 0] := by
  have one : width n h = 1 := by
    have least : 0 < width n h := (lt_width n).mpr (by omega)
    have most := top.1
    omega
  rw [row,one]
  rfl

theorem top_le {h : Nat} (top : Top n h) : h ≤ n := by
  cases h with
  | zero => exact Nat.zero_le n
  | succ h =>
    have wide := top.2 h (Nat.lt_succ_self h)
    have leaves := (lt_width n).mp wide
    have grows : h < 2^h := Nat.lt_two_pow_self
    omega

theorem top_unique {h h' : Nat} (top : Top n h) (top' : Top n h') : h = h' := by
  rcases Nat.lt_trichotomy h h' with less | same | more
  · exact absurd top.1 (Nat.not_le_of_lt (top'.2 h less))
  · exact same
  · exact absurd top'.1 (Nat.not_le_of_lt (top.2 h' more))

/-! ### Leaves -/

@[simp] theorem under_zero {pos : Nat} (within : pos < n) : under n 0 pos = [pos] := by
  have one : min (pos+1) n-pos = 1 := by omega
  simp [under,one]

theorem under_succ (h pos : Nat) : under n (h+1) pos = under n h (pos*2) ++ under n h (pos*2+1) := by
  have start : pos*2^(h+1) = pos*2*2^h := by ring
  have stop : (pos+1)*2^(h+1) = pos*2*2^h+2^h+2^h := by ring
  have middle : (pos*2+1)*2^h = pos*2*2^h+2^h := by ring
  have last : (pos*2+1+1)*2^h = pos*2*2^h+2^h+2^h := by ring
  rw [under,under,under,start,stop,middle,last]
  generalize pos*2*2^h = first
  generalize 2^h = half
  by_cases full : first+half ≤ n
  · have left : min (first+half) n-first = half := by omega
    rw [left,List.range'_append_1]
    congr 1
    omega
  · have right : min (first+half+half) n-(first+half) = 0 := by omega
    rw [right,List.range'_zero,List.append_nil]
    congr 1
    omega

theorem under_none {h pos : Nat} (outside : ¬pos < width n h) : under n h pos = [] := by
  rw [lt_width] at outside
  rw [under,Nat.sub_eq_zero_of_le (by omega),List.range'_zero]

theorem under_top {h : Nat} (top : Top n h) : under n h 0 = List.range n := by
  have all : n ≤ 2^h := by
    by_contra more
    have wide : 1 < width n h := (lt_width n).mpr (by omega)
    have most := top.1
    omega
  rw [under,Nat.zero_mul,Nat.zero_add,Nat.one_mul,Nat.min_eq_right all,Nat.sub_zero,List.range_eq_range']

theorem under_length_pos {h pos : Nat} (within : pos < width n h) : 0 < (under n h pos).length := by
  have leaves := (lt_width n).mp within
  have positive := Nat.two_pow_pos h
  rw [under,List.length_range',Nat.succ_mul]
  omega

/-! ### The cut tree -/

variable (wanted : Nat → Bool)

def parent (h pos : Nat) : Bool := (under n h pos).any wanted

/-- For each node that is left, in preorder: whether a wanted leaf stands under it. -/
def marks : Nat → Nat → List Bool
  | 0, pos => [parent n wanted 0 pos]
  | h+1, pos =>
    if parent n wanted (h+1) pos then true :: (marks h (pos*2) ++ if pos*2+1 < width n h then marks h (pos*2+1) else []) else [false]

/-- The nodes where the cut tree ends. -/
def stored : Nat → Nat → List α
  | 0, pos => [node op leaf n 0 pos]
  | h+1, pos =>
    if parent n wanted (h+1) pos then stored h (pos*2) ++ (if pos*2+1 < width n h then stored h (pos*2+1) else [])
    else [node op leaf n (h+1) pos]

def found (h pos : Nat) : List α := ((under n h pos).filter wanted).map leaf

theorem found_succ (h pos : Nat) : found leaf n wanted (h+1) pos = found leaf n wanted h (pos*2) ++ found leaf n wanted h (pos*2+1) := by
  rw [found,under_succ,List.filter_append,List.map_append]
  rfl

theorem found_outside {h pos : Nat} (outside : ¬pos < width n h) : found leaf n wanted h pos = [] := by
  rw [found,under_none n outside]
  rfl

theorem found_cut {h pos : Nat} (cut : parent n wanted h pos = false) : found leaf n wanted h pos = [] := by
  rw [parent,List.any_eq_false] at cut
  rw [found,List.filter_eq_nil_iff.mpr cut]
  rfl

/-- Every stored node has its own mark and a leaf of its own. -/
theorem stored_length (h : Nat) {pos : Nat} (within : pos < width n h) :
    (stored op leaf n wanted h pos).length ≤ (marks n wanted h pos).length ∧
      (stored op leaf n wanted h pos).length ≤ (under n h pos).length := by
  induction h generalizing pos with
  | zero =>
    rw [width_zero] at within
    simp [stored,marks,within]
  | succ h ih =>
    have left := ih (left_lt n within)
    have leaves := under_length_pos n within
    unfold stored marks
    by_cases kept : parent n wanted (h+1) pos = true
    · rw [if_pos kept,if_pos kept,under_succ]
      by_cases right : pos*2+1 < width n h
      · have more := ih right
        rw [if_pos right,if_pos right]
        simp only [List.length_append,List.length_cons]
        omega
      · rw [if_neg right,if_neg right,under_none n right]
        simp only [List.append_nil,List.length_cons]
        omega
    · rw [if_neg kept,if_neg kept]
      exact ⟨le_rfl,leaves⟩

theorem marks_length (h pos : Nat) : (marks n wanted h pos).length+1 ≤ 2^(h+1) := by
  induction h generalizing pos with
  | zero => simp [marks]
  | succ h ih =>
    have left := ih (pos*2)
    have right := ih (pos*2+1)
    rw [Nat.pow_succ]
    unfold marks
    split
    · split
      · simp only [List.length_append,List.length_cons]
        omega
      · simp only [List.append_nil,List.length_cons]
        omega
    · simp only [List.length_singleton]
      omega

theorem mem_stored {P : α → Prop} (leaves : ∀ p < n, P (leaf p)) (joined : ∀ a b, P (op a b)) (h : Nat) {pos : Nat} (within : pos < width n h) :
    ∀ a ∈ stored op leaf n wanted h pos, P a := by
  induction h generalizing pos with
  | zero =>
    rw [width_zero] at within
    intro a member
    obtain rfl := List.mem_singleton.mp member
    exact leaves pos within
  | succ h ih =>
    intro a member
    unfold stored at member
    split at member
    · rcases List.mem_append.mp member with left | right
      · exact ih (left_lt n within) a left
      · split at right
        next inside => exact ih inside a right
        · contradiction
    · obtain rfl := List.mem_singleton.mp member
      exact joined _ _

/-! ### The rows in one list -/

/-- Where the row of a height starts when the rows stand one after another. -/
def offset : Nat → Nat
  | 0 => 0
  | h+1 => offset h+width n h

/-- All rows up to a height. -/
def flat : Nat → List α
  | 0 => row op leaf n 0
  | h+1 => flat h ++ row op leaf n (h+1)

@[simp] theorem flat_length (h : Nat) : (flat op leaf n h).length = offset n (h+1) := by
  induction h with
  | zero => simp [flat,offset]
  | succ h ih => rw [flat,List.length_append,ih,row_length]; rfl

theorem row_getElem? {h pos : Nat} (within : pos < width n h) : (row op leaf n h)[pos]? = some (node op leaf n h pos) := by
  simp [row,within]

theorem flat_getElem? {low h pos : Nat} (below : low ≤ h) (within : pos < width n low) :
    (flat op leaf n h)[offset n low+pos]? = some (node op leaf n low pos) := by
  induction h with
  | zero =>
    obtain rfl : low = 0 := by omega
    rw [offset,Nat.zero_add]
    exact row_getElem? op leaf n within
  | succ h ih =>
    rw [flat]
    rcases Nat.lt_or_eq_of_le below with under | rfl
    · have inside : offset n low+pos < (flat op leaf n h).length :=
        (List.getElem?_eq_some_iff.mp (ih (by omega))).1
      rw [List.getElem?_append_left inside]
      exact ih (by omega)
    · rw [List.getElem?_append_right (by simp),flat_length,Nat.add_sub_cancel_left]
      exact row_getElem? op leaf n within

theorem flat_getLast? {h : Nat} (top : Top n h) (filled : 0 < n) : (flat op leaf n h).getLast? = some (node op leaf n h 0) := by
  cases h with
  | zero => rw [flat,row_top op leaf n top filled]; rfl
  | succ h => rw [flat,row_top op leaf n top filled,List.getLast?_append]; rfl

theorem offset_mono {low h : Nat} (below : low ≤ h) : offset n low ≤ offset n h := by
  induction below with
  | refl => exact le_rfl
  | step _ ih => exact ih.trans (Nat.le_add_right _ _)

/-- There is a node above every row below the top. -/
theorem offset_succ_lt {h top : Nat} (first : Top n top) (below : h < top) : offset n (h+1)+1 ≤ offset n (top+1) := by
  have wide := first.2 h below
  have filled : 0 < width n (h+1) := by rw [width_succ]; omega
  have above : offset n (h+2) ≤ offset n (top+1) := offset_mono n (by omega)
  have upTo : offset n (h+2) = offset n (h+1)+width n (h+1) := rfl
  omega

/-- A tree over at most `2^k` leaves has fewer than `2^(k+1)` nodes. -/
theorem offset_le {k h : Nat} (few : n ≤ 2^k) (low : h ≤ k+1) : offset n h+2^(k+1-h) ≤ 2^(k+1) := by
  induction h with
  | zero => simp [offset]
  | succ h ih =>
    have narrow : width n h ≤ 2^(k-h) := by
      refine width_le n (few.trans (le_of_eq ?_))
      rw [← Nat.pow_add]
      congr 1
      omega
    have before := ih (by omega)
    have twice : 2^(k+1-h) = 2^(k-h)*2 := by
      rw [← Nat.pow_succ]
      congr 1
      omega
    have next : k+1-(h+1) = k-h := by omega
    rw [offset,next]
    omega

theorem top_le_log {k h : Nat} (few : n ≤ 2^k) (top : Top n h) : h ≤ k := by
  by_contra more
  have wide := top.2 k (by omega)
  have one : width n k ≤ 1 := width_le n (by omega)
  omega

/-! ### Branches -/

/-- The node that a node is joined with; the last one of an odd row has itself. -/
def sibling (h pos : Nat) : Nat := min (if pos%2 = 0 then pos+1 else pos-1) (width n h-1)

theorem sibling_lt {h pos : Nat} (within : pos < width n h) : sibling n h pos < width n h := by
  rw [sibling]
  omega

/-- One step up: a node at an odd position is the right one. -/
def climb (pos : Nat) (a other : α) : α := if pos%2 = 1 then op other a else op a other

theorem climb_node {h pos : Nat} (within : pos < width n h) :
    climb op pos (node op leaf n h pos) (node op leaf n h (sibling n h pos)) = node op leaf n (h+1) (pos/2) := by
  rw [climb,node,sibling]
  by_cases right : pos%2 = 1
  · have half : pos/2*2 = pos-1 := by omega
    have other : min (if pos%2 = 0 then pos+1 else pos-1) (width n h-1) = pos-1 := by rw [if_neg (by omega)]; omega
    rw [if_pos right,half,other,show pos-1+1 = pos by omega,if_pos within]
  · have half : pos/2*2 = pos := by omega
    rw [if_neg right,half,if_pos (show pos%2 = 0 by omega)]
    congr 1
    by_cases joined : pos+1 < width n h
    · rw [if_pos joined,Nat.min_eq_left (by omega)]
    · rw [if_neg joined,Nat.min_eq_right (by omega),show width n h-1 = pos by omega]

theorem half_lt {h pos : Nat} (within : pos < width n h) : pos/2 < width n (h+1) := by
  rw [width_succ]
  omega

/-! ### What the top row says of the bottom one -/

theorem pairs_ne_nil {as : List α} (some : as ≠ []) : pairs op as ≠ [] := by
  match as, some with
  | [_], _ => simp [pairs]
  | _ :: _ :: _, _ => simp [pairs]

theorem pairs_length (as : List α) : (pairs op as).length = (as.length+1)/2 := by
  induction as using pairs.induct with
  | case1 => simp [pairs]
  | case2 a => simp [pairs]
  | case3 a b rest ih =>
    rw [pairs,List.length_cons,ih,List.length_cons,List.length_cons]
    omega

variable {op}

theorem mem_pairs {as : List α} {c : α} (member : c ∈ pairs op as) : ∃ a ∈ as, ∃ b ∈ as, c = op a b := by
  induction as using pairs.induct with
  | case1 => contradiction
  | case2 a =>
    obtain rfl := List.mem_singleton.mp member
    exact ⟨a,by simp,a,by simp,rfl⟩
  | case3 a b rest ih =>
    rcases List.mem_cons.mp member with rfl | later
    · exact ⟨a,by simp,b,by simp,rfl⟩
    · obtain ⟨a',first,b',second,rfl⟩ := ih later
      exact ⟨a',by simp [first],b',by simp [second],rfl⟩

section Injective
variable (injective : ∀ a b c d, op a b = op c d → a = c ∧ b = d)
include injective

theorem pairs_nodup {as : List α} (distinct : as.Nodup) : (pairs op as).Nodup := by
  induction as using pairs.induct with
  | case1 => exact List.nodup_nil
  | case2 a => exact List.nodup_singleton _
  | case3 a b rest ih =>
    simp only [List.nodup_cons,List.mem_cons,not_or] at distinct
    rw [pairs,List.nodup_cons]
    refine ⟨fun member => ?_,ih distinct.2.2⟩
    obtain ⟨a',first,b',_,same⟩ := mem_pairs member
    obtain ⟨rfl,_⟩ := injective _ _ _ _ same
    exact distinct.1.2 first

/-- Without repetitions a node joined with itself is the last one of an odd row, and no
    other row has the same one above it. -/
theorem pairs_injective {as bs : List α} (left : as.Nodup) (right : bs.Nodup) (same : pairs op as = pairs op bs) : as = bs := by
  induction as using pairs.induct generalizing bs with
  | case1 =>
    cases bs with
    | nil => rfl
    | cons b bs => exact absurd same.symm (pairs_ne_nil op (by simp))
  | case2 a =>
    match bs with
    | [] => contradiction
    | [b] => rw [(injective _ _ _ _ (List.cons.inj same).1).1]
    | b :: b' :: bs =>
      obtain ⟨rfl,rfl⟩ := injective _ _ _ _ (List.cons.inj same).1
      simp at right
  | case3 a a' rest ih =>
    match bs with
    | [] => contradiction
    | [b] =>
      obtain ⟨rfl,rfl⟩ := injective _ _ _ _ (List.cons.inj same).1
      simp at left
    | b :: b' :: bs =>
      obtain ⟨first,later⟩ := List.cons.inj same
      obtain ⟨rfl,rfl⟩ := injective _ _ _ _ first
      simp only [List.nodup_cons] at left right
      rw [ih left.2.2 right.2.2 later]

end Injective

/-- The values that stand at a height over some leaves. -/
def Stands (op : α → α → α) (isLeaf : α → Prop) : Nat → α → Prop
  | 0, a => isLeaf a
  | h+1, a => ∃ b c, Stands op isLeaf h b ∧ Stands op isLeaf h c ∧ a = op b c

theorem pairs_stands {isLeaf : α → Prop} {h : Nat} {as : List α} (each : ∀ a ∈ as, Stands op isLeaf h a) :
    ∀ a ∈ pairs op as, Stands op isLeaf (h+1) a := by
  intro a member
  obtain ⟨b,left,c,right,rfl⟩ := mem_pairs member
  exact ⟨b,c,each b left,each c right,rfl⟩

/-- No value stands at two heights when joining is injective and never gives a leaf. -/
theorem stands_unique (injective : ∀ a b c d, op a b = op c d → a = c ∧ b = d) {isLeaf : α → Prop} (apart : ∀ a b, ¬isLeaf (op a b))
    {h h' : Nat} {a : α} (here : Stands op isLeaf h a) (there : Stands op isLeaf h' a) : h = h' := by
  induction h generalizing h' a with
  | zero =>
    cases h' with
    | zero => rfl
    | succ h' =>
      obtain ⟨b,c,_,_,rfl⟩ := there
      exact absurd here (apart b c)
  | succ h ih =>
    obtain ⟨b,c,left,_,rfl⟩ := here
    cases h' with
    | zero => exact absurd there (apart b c)
    | succ h' =>
      obtain ⟨b',c',left',_,same⟩ := there
      obtain ⟨rfl,rfl⟩ := injective _ _ _ _ same
      rw [ih left left']

end Tetra.PairTree
