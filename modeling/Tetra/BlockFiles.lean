import Mathlib
import Tetra.ExternalBlocks

/-!
The statistics the node keeps of its block files, and the positions it gives to blocks and
to their undo data.
-/
namespace Tetra

def MAX_BLOCKFILE_SIZE : UInt32 := 0x8000000
def BLOCKFILE_CHUNK_SIZE : UInt32 := 0x1000000
def UNDOFILE_CHUNK_SIZE : UInt32 := 0x100000

/-- `CBlockFileInfo` with all its fields; a new record is all zeros. -/
structure BlockFileInfo where
  nBlocks : UInt32 := 0
  nSize : UInt32 := 0
  nUndoSize : UInt32 := 0
  nHeightFirst : UInt32 := 0
  nHeightLast : UInt32 := 0
  nTimeFirst : UInt64 := 0
  nTimeLast : UInt64 := 0
deriving DecidableEq

namespace BlockFileInfo

/-- Every field is compared with its own bound but the last height, which is compared with
    the first. -/
def AddBlock (info : BlockFileInfo) (nHeightIn : UInt32) (nTimeIn : UInt64) : BlockFileInfo :=
  let nHeightFirst := if info.nBlocks = 0 ∨ info.nHeightFirst > nHeightIn then nHeightIn else info.nHeightFirst
  let nTimeFirst := if info.nBlocks = 0 ∨ info.nTimeFirst > nTimeIn then nTimeIn else info.nTimeFirst
  {info with
    nHeightFirst := nHeightFirst
    nTimeFirst := nTimeFirst
    nBlocks := info.nBlocks+1
    nHeightLast := if nHeightIn > nHeightFirst then nHeightIn else info.nHeightLast
    nTimeLast := if nTimeIn > info.nTimeLast then nTimeIn else info.nTimeLast}

/-- A record after these blocks, each with its height and its time. -/
def adding (blocks : List (UInt32 × UInt64)) : BlockFileInfo :=
  blocks.foldl (fun info block => info.AddBlock block.1 block.2) {}

/-- What the fields are for. -/
structure Statistics (info : BlockFileInfo) (blocks : List (UInt32 × UInt64)) : Prop where
  count : info.nBlocks.toNat = blocks.length
  heightFirst : blocks ≠ [] → IsLeast {h | h ∈ blocks.map (·.1.toNat)} info.nHeightFirst.toNat
  heightLast : blocks ≠ [] → IsGreatest {h | h ∈ blocks.map (·.1.toNat)} info.nHeightLast.toNat
  timeFirst : blocks ≠ [] → IsLeast {t | t ∈ blocks.map (·.2.toNat)} info.nTimeFirst.toNat
  timeLast : blocks ≠ [] → IsGreatest {t | t ∈ blocks.map (·.2.toNat)} info.nTimeLast.toNat

end BlockFileInfo

/-! ### The last entry above an earlier one -/

section LastAbove
variable {α : Type*} [LinearOrder α] {list : List α} {x top : α}

/-- `top` stands in the list after something lower, and nothing after `top` does. -/
def LastAbove (list : List α) (top : α) : Prop :=
  ∃ before after, list = before ++ top :: after ∧ (∃ y ∈ before, y < top) ∧
    (∀ z ∈ after, ∀ y ∈ before ++ [top], z ≤ y) ∧ after.Pairwise (· ≥ ·)

theorem LastAbove.descending (pairs : list.Pairwise (· ≥ ·)) : ¬ LastAbove list top := by
  rintro ⟨before,after,rfl,⟨y,member,lower⟩,_⟩
  have order := (List.pairwise_append.mp pairs).2.2 y member top (by simp)
  exact absurd lower (not_lt.mpr order)

theorem LastAbove.append_above (above : ∃ y ∈ list, y < x) : LastAbove (list ++ [x]) top ↔ top = x := by
  constructor
  · rintro ⟨before,after,split,_,low,pairs⟩
    rcases List.eq_nil_or_concat after with rfl | ⟨inner,last,rfl⟩
    · simpa using (List.append_inj' split rfl).2.symm
    · rw [List.concat_eq_append,← List.cons_append,← List.append_assoc] at split
      obtain ⟨rfl,same⟩ := List.append_inj' split rfl
      obtain rfl : x = last := by simpa using same
      obtain ⟨y,member,lower⟩ := above
      refine absurd lower (not_lt.mpr ?_)
      rw [List.append_cons,List.mem_append] at member
      rcases member with early | late
      · exact low x (by simp) y early
      · rw [List.concat_eq_append,List.pairwise_append] at pairs
        exact pairs.2.2 y late x (by simp)
  · rintro rfl
    exact ⟨list,[],rfl,above,by simp,List.Pairwise.nil⟩

theorem LastAbove.append_below (below : ∀ y ∈ list, x ≤ y) : LastAbove (list ++ [x]) top ↔ LastAbove list top := by
  constructor
  · rintro ⟨before,after,split,lower,low,pairs⟩
    rcases List.eq_nil_or_concat after with rfl | ⟨inner,last,rfl⟩
    · obtain ⟨rfl,same⟩ := List.append_inj' split rfl
      obtain rfl : x = top := by simpa using same
      obtain ⟨y,member,less⟩ := lower
      exact absurd less (not_lt.mpr (below y member))
    · rw [List.concat_eq_append,← List.cons_append,← List.append_assoc] at split
      obtain ⟨rfl,_⟩ := List.append_inj' split rfl
      rw [List.concat_eq_append] at low pairs
      exact ⟨before,inner,rfl,lower,fun z member => low z (by simp [member]),(List.pairwise_append.mp pairs).1⟩
  · rintro ⟨before,after,rfl,lower,low,pairs⟩
    refine ⟨before,after ++ [x],by simp,lower,?_,?_⟩
    · intro z member y earlier
      rcases List.mem_append.mp member with member | member
      · exact low z member y earlier
      · rw [List.mem_singleton.mp member]
        exact below y (by rw [List.append_cons]; exact List.mem_append_left _ earlier)
    · refine List.pairwise_append.mpr ⟨pairs,List.pairwise_singleton _ _,fun y member z last => ?_⟩
      rw [List.mem_singleton.mp last]
      exact below y (by simp [member])

theorem LastAbove.unique {other : α} (last : LastAbove list top) (also : LastAbove list other) : top = other := by
  induction list using List.reverseRecOn with
  | nil => exact absurd last (LastAbove.descending List.Pairwise.nil)
  | append_singleton list x ih =>
    by_cases above : ∃ y ∈ list, y < x
    · rw [(LastAbove.append_above above).mp last,(LastAbove.append_above above).mp also]
    · push Not at above
      exact ih ((LastAbove.append_below above).mp last) ((LastAbove.append_below above).mp also)

theorem LastAbove.mem (last : LastAbove list top) : top ∈ list := by
  obtain ⟨before,after,rfl,_⟩ := last
  simp

end LastAbove

section Bounds
variable {α : Type*} [LinearOrder α] {list : List α} {x bound : α}

theorem isLeast_append (least : list ≠ [] → IsLeast {y | y ∈ list} bound) :
    IsLeast {y | y ∈ list ++ [x]} (if list = [] ∨ bound > x then x else bound) := by
  split_ifs with new
  · refine ⟨by simp,fun y member => ?_⟩
    rcases List.mem_append.mp member with early | late
    · rcases new with rfl | below
      · simp at early
      · exact below.le.trans ((least (List.ne_nil_of_mem early)).2 early)
    · exact (List.mem_singleton.mp late).ge
  · rw [not_or,not_lt] at new
    refine ⟨List.mem_append_left _ (least new.1).1,fun y member => ?_⟩
    rcases List.mem_append.mp member with early | late
    · exact (least new.1).2 early
    · exact new.2.trans (List.mem_singleton.mp late).ge

theorem isGreatest_append (greatest : IsGreatest {y | y ∈ list} bound) : IsGreatest {y | y ∈ list ++ [x]} (if x > bound then x else bound) := by
  split_ifs with above
  · refine ⟨by simp,fun y member => ?_⟩
    rcases List.mem_append.mp member with early | late
    · exact (greatest.2 early).trans above.le
    · exact (List.mem_singleton.mp late).le
  · refine ⟨List.mem_append_left _ greatest.1,fun y member => ?_⟩
    rcases List.mem_append.mp member with early | late
    · exact greatest.2 early
    · exact (List.mem_singleton.mp late).le.trans (not_lt.mp above)

/-- Above an earlier entry is above the least of them all. -/
theorem above_least (least : IsLeast {y | y ∈ list ++ [x]} bound) : x > bound ↔ ∃ y ∈ list, y < x := by
  constructor
  · intro above
    rcases List.mem_append.mp least.1 with early | late
    · exact ⟨bound,early,above⟩
    · exact absurd (List.mem_singleton.mp late) above.ne
  · rintro ⟨y,member,lower⟩
    exact (least.2 (List.mem_append_left _ member)).trans_lt lower

end Bounds

namespace BlockFileInfo

/-- All heights are zero, or the last one above an earlier one is the greatest of all. -/
def EndsOnTop (heights : List Nat) : Prop :=
  (∀ h ∈ heights, h = 0) ∨ ∃ top, LastAbove heights top ∧ ∀ h ∈ heights, h ≤ top

/-- The fields of a record to which fewer than `2^32` blocks were added. -/
structure Kept (info : BlockFileInfo) (blocks : List (UInt32 × UInt64)) : Prop where
  count : info.nBlocks.toNat = blocks.length
  heightFirst : blocks ≠ [] → IsLeast {h | h ∈ blocks.map (·.1.toNat)} info.nHeightFirst.toNat
  heightLast : info.nHeightLast = 0 ∧ (blocks.map (·.1.toNat)).Pairwise (· ≥ ·) ∨ LastAbove (blocks.map (·.1.toNat)) info.nHeightLast.toNat
  timeFirst : blocks ≠ [] → IsLeast {t | t ∈ blocks.map (·.2.toNat)} info.nTimeFirst.toNat
  timeLast : IsGreatest {t | t ∈ 0 :: blocks.map (·.2.toNat)} info.nTimeLast.toNat

theorem Kept.added {info : BlockFileInfo} {blocks : List (UInt32 × UInt64)} (kept : Kept info blocks) (few : blocks.length+1 < 2^32)
    (nHeightIn : UInt32) (nTimeIn : UInt64) : Kept (info.AddBlock nHeightIn nTimeIn) (blocks ++ [(nHeightIn,nTimeIn)]) := by
  have none_yet : info.nBlocks = 0 ↔ blocks = [] := by
    rw [← List.length_eq_zero_iff,← kept.count,← UInt32.toNat_inj]; rfl
  have height : (info.AddBlock nHeightIn nTimeIn).nHeightFirst.toNat =
      if blocks.map (·.1.toNat) = [] ∨ info.nHeightFirst.toNat > nHeightIn.toNat then nHeightIn.toNat else info.nHeightFirst.toNat := by
    simp only [AddBlock,none_yet,apply_ite UInt32.toNat,gt_iff_lt,UInt32.lt_iff_toNat_lt,List.map_eq_nil_iff]
  have time : (info.AddBlock nHeightIn nTimeIn).nTimeFirst.toNat =
      if blocks.map (·.2.toNat) = [] ∨ info.nTimeFirst.toNat > nTimeIn.toNat then nTimeIn.toNat else info.nTimeFirst.toNat := by
    simp only [AddBlock,none_yet,apply_ite UInt64.toNat,gt_iff_lt,UInt64.lt_iff_toNat_lt,List.map_eq_nil_iff]
  have heightFirst : IsLeast {h | h ∈ blocks.map (·.1.toNat) ++ [nHeightIn.toNat]} (info.AddBlock nHeightIn nTimeIn).nHeightFirst.toNat := by
    rw [height]
    exact isLeast_append fun some => kept.heightFirst (mt (congrArg _) some)
  refine ⟨?_,fun _ => ?_,?_,fun _ => ?_,?_⟩
  · rw [AddBlock,UInt32.toNat_add,kept.count,List.length_append]
    exact Nat.mod_eq_of_lt few
  · rwa [List.map_append]
  · rw [List.map_append]
    by_cases above : ∃ g ∈ blocks.map (·.1.toNat), g < nHeightIn.toNat
    · have raised : (info.AddBlock nHeightIn nTimeIn).nHeightLast = nHeightIn :=
        if_pos (UInt32.lt_iff_toNat_lt.mpr ((above_least heightFirst).mpr above))
      exact .inr ((LastAbove.append_above above).mpr (congrArg _ raised))
    · have held : (info.AddBlock nHeightIn nTimeIn).nHeightLast = info.nHeightLast :=
        if_neg fun raised => above ((above_least heightFirst).mp (UInt32.lt_iff_toNat_lt.mp raised))
      push Not at above
      rw [held]
      rcases kept.heightLast with ⟨zero,pairs⟩ | last
      · exact .inl ⟨zero,List.pairwise_append.mpr ⟨pairs,List.pairwise_singleton _ _,by simpa using above⟩⟩
      · exact .inr ((LastAbove.append_below above).mpr last)
  · rw [List.map_append,time]
    exact isLeast_append fun some => kept.timeFirst (mt (congrArg _) some)
  · have last : (info.AddBlock nHeightIn nTimeIn).nTimeLast.toNat =
        if nTimeIn.toNat > info.nTimeLast.toNat then nTimeIn.toNat else info.nTimeLast.toNat := by
      simp only [AddBlock,apply_ite UInt64.toNat,gt_iff_lt,UInt64.lt_iff_toNat_lt]
    rw [List.map_append,last]
    exact isGreatest_append kept.timeLast

theorem adding_append (blocks : List (UInt32 × UInt64)) (block : UInt32 × UInt64) :
    adding (blocks ++ [block]) = (adding blocks).AddBlock block.1 block.2 := by simp [adding]

theorem adding_kept (blocks : List (UInt32 × UInt64)) (few : blocks.length < 2^32) : Kept (adding blocks) blocks := by
  induction blocks using List.reverseRecOn with
  | nil => exact ⟨rfl,by simp,.inl ⟨rfl,by simp⟩,by simp,by simp [adding]⟩
  | append_singleton blocks block ih =>
    rw [List.length_append] at few
    rw [adding_append]
    exact (ih (by simp at few; omega)).added (by simpa using few) block.1 block.2

/-- The number of blocks wraps at `2^32`. -/
theorem adding_nBlocks (blocks : List (UInt32 × UInt64)) : (adding blocks).nBlocks.toNat = blocks.length%2^32 := by
  induction blocks using List.reverseRecOn with
  | nil => rfl
  | append_singleton blocks block ih =>
    rw [adding_append,AddBlock,UInt32.toNat_add,ih,List.length_append]
    simp

namespace Kept
variable {info : BlockFileInfo} {blocks : List (UInt32 × UInt64)}

/-- Only the last height can be wrong. -/
theorem statistics (kept : Kept info blocks) (last : blocks ≠ [] → IsGreatest {h | h ∈ blocks.map (·.1.toNat)} info.nHeightLast.toNat) :
    Statistics info blocks := by
  refine ⟨kept.count,kept.heightFirst,last,kept.timeFirst,fun some => ⟨?_,fun t member => kept.timeLast.2 (List.mem_cons_of_mem _ member)⟩⟩
  rcases List.mem_cons.mp kept.timeLast.1 with zero | member
  · obtain ⟨block,member⟩ := List.exists_mem_of_ne_nil blocks some
    have below := kept.timeLast.2 (List.mem_cons_of_mem 0 (List.mem_map_of_mem (f := (·.2.toNat)) member))
    rw [zero] at below ⊢
    exact List.mem_map.mpr ⟨block,member,Nat.le_zero.mp below⟩
  · exact member

/-- The last height is the greatest one only where the heights end on it. -/
theorem heightLast_iff (kept : Kept info blocks) :
    (blocks ≠ [] → IsGreatest {h | h ∈ blocks.map (·.1.toNat)} info.nHeightLast.toNat) ↔ EndsOnTop (blocks.map (·.1.toNat)) := by
  have occupied : ∀ h ∈ blocks.map (·.1.toNat), blocks ≠ [] := by
    rintro h member rfl
    simp at member
  constructor
  · intro greatest
    rcases kept.heightLast with ⟨zero,_⟩ | last
    · refine .inl fun h member => ?_
      have below := (greatest (occupied h member)).2 member
      rw [zero] at below
      exact Nat.le_zero.mp below
    · exact .inr ⟨_,last,fun h member => (greatest (occupied h member)).2 member⟩
  · rintro (zeros | ⟨top,last,greatest⟩) some
    · rcases kept.heightLast with ⟨zero,_⟩ | last
      · obtain ⟨block,member⟩ := List.exists_mem_of_ne_nil blocks some
        have height := List.mem_map_of_mem (f := (·.1.toNat)) member
        rw [zeros _ height] at height
        rw [zero]
        exact ⟨height,fun h member => (zeros h member).le⟩
      · refine absurd last (LastAbove.descending (List.pairwise_of_forall_mem_list fun g early h late => ?_))
        rw [zeros h late]
        exact Nat.zero_le g
    · rcases kept.heightLast with ⟨_,pairs⟩ | also
      · exact absurd last (LastAbove.descending pairs)
      · rw [also.unique last]
        exact ⟨last.mem,greatest⟩

end Kept

/-- The statistics are right for fewer than `2^32` blocks of which the last one above an
    earlier one is highest, or that are all at height zero; and for no others. -/
theorem AddBlock_statistics (blocks : List (UInt32 × UInt64)) :
    Statistics (adding blocks) blocks ↔ blocks.length < 2^32 ∧ EndsOnTop (blocks.map (·.1.toNat)) := by
  constructor
  · intro right
    have few : blocks.length < 2^32 := by
      have count := right.count
      rw [adding_nBlocks] at count
      omega
    exact ⟨few,(adding_kept blocks few).heightLast_iff.mp right.heightLast⟩
  · rintro ⟨few,ends⟩
    have kept := adding_kept blocks few
    exact kept.statistics (kept.heightLast_iff.mpr ends)

/-- Of the heights 1, 5 and 3 the last one is kept as the highest. -/
theorem heights_one_five_three : ¬ Statistics (adding [(1,0),(5,0),(3,0)]) [(1,0),(5,0),(3,0)] := by
  intro right
  have top := (right.heightLast (by simp)).2 (show 5 ∈ _ by decide)
  exact absurd top (by decide)

end BlockFileInfo

/-! ### Positions -/

/-- What a call meets outside the allocator: the free disk space, and whether the database
    takes its writes. -/
structure FileEnv where
  CheckDiskSpace : UInt64 → Bool
  WriteBlockFileInfo : Bool
  WriteLastBlockFile : Bool

/-- The allocator's variables, and the records and the last file in the database. -/
structure BlockFiles where
  nLastBlockFile : Nat := 0
  infoLastBlockFile : BlockFileInfo := {}
  infos : Std.ExtTreeMap Nat BlockFileInfo := ∅
  lastBlockFile : Option Nat := none

namespace BlockFiles

/-- `SetNull` and then `ReadBlockFileInfo`, which leaves the record alone if it finds none. -/
def stored (files : BlockFiles) (nFile : Nat) : BlockFileInfo := files.infos[nFile]?.getD {}

def enter (files : BlockFiles) (nFile : Nat) : BlockFiles :=
  {files with nLastBlockFile := nFile,infoLastBlockFile := files.stored nFile}

/-- `WriteBlockFileInfo` of the last file's record. -/
def write (files : BlockFiles) : BlockFiles :=
  {files with infos := files.infos.insert files.nLastBlockFile files.infoLastBlockFile}

def full (nAddSize : UInt32) (info : BlockFileInfo) : Bool := info.nSize+nAddSize ≥ MAX_BLOCKFILE_SIZE

/-- The loop that leaves full files, with `fUpdatedLast`; none if the fuel runs out. -/
def leaveFull (nAddSize : UInt32) : Nat → BlockFiles → Bool → Option (BlockFiles × Bool)
  | 0, _, _ => none
  | fuel+1, files, fUpdatedLast =>
    if full nAddSize files.infoLastBlockFile then leaveFull nAddSize fuel (files.enter (files.nLastBlockFile+1)) true
    else some (files,fUpdatedLast)

/-- Whether there is room for the chunks that become part of a file. -/
def preallocate (env : FileEnv) (CHUNK_SIZE nPos nNewSize : UInt32) : Bool :=
  let nOldChunks := (nPos+CHUNK_SIZE-1)/CHUNK_SIZE
  let nNewChunks := (nNewSize+CHUNK_SIZE-1)/CHUNK_SIZE
  if nNewChunks > nOldChunks then env.CheckDiskSpace (nNewChunks*CHUNK_SIZE-nPos).toUInt64 else true

def grow (files : BlockFiles) (nAddSize nHeight : UInt32) (nTime : UInt64) : BlockFiles :=
  let info := files.infoLastBlockFile
  {files with infoLastBlockFile := {info with nSize := info.nSize+nAddSize}.AddBlock nHeight nTime}

/-- `FindBlockPos` from where the file is chosen. -/
def record (env : FileEnv) (files : BlockFiles) (pos : CDiskBlockPos) (nAddSize nHeight : UInt32) (nTime : UInt64)
    (fKnown fUpdatedLast : Bool) : BlockFiles × Except Reject CDiskBlockPos :=
  let files := files.grow nAddSize nHeight nTime
  if fKnown = false ∧ preallocate env BLOCKFILE_CHUNK_SIZE (UInt32.ofNat pos.nPos) files.infoLastBlockFile.nSize = false then
    (files,.error (.Error ""))
  else if env.WriteBlockFileInfo = false then (files,.error (.Error "Failed to write file info"))
  else
    let files := files.write
    (if fUpdatedLast ∧ env.WriteLastBlockFile then {files with lastBlockFile := files.nLastBlockFile} else files,.ok pos)

/-- A known position is taken as it is; else the block goes to the end of the first file
    with room. -/
def FindBlockPos (fuel : Nat) (env : FileEnv) (files : BlockFiles) (pos : CDiskBlockPos) (nAddSize nHeight : UInt32) (nTime : UInt64)
    (fKnown : Bool) : Option (BlockFiles × Except Reject CDiskBlockPos) :=
  if fKnown then
    let (files,fUpdatedLast) := if files.nLastBlockFile ≠ pos.nFile then (files.enter pos.nFile,true) else (files,false)
    some (files.record env pos nAddSize nHeight nTime true fUpdatedLast)
  else do
    let (files,fUpdatedLast) ← leaveFull nAddSize fuel files false
    let pos := ⟨files.nLastBlockFile,files.infoLastBlockFile.nSize.toNat⟩
    some (files.record env pos nAddSize nHeight nTime false fUpdatedLast)

/-- The undo data of a block goes to the end of the undo file beside the block's file. -/
def FindUndoPos (env : FileEnv) (files : BlockFiles) (nFile : Nat) (nAddSize : UInt32) : BlockFiles × Except Reject CDiskBlockPos :=
  let allocate (files : BlockFiles) (nPos nNewSize : UInt32) : BlockFiles × Except Reject CDiskBlockPos :=
    if preallocate env UNDOFILE_CHUNK_SIZE nPos nNewSize then (files,.ok ⟨nFile,nPos.toNat⟩) else (files,.error (.Error ""))
  if nFile = files.nLastBlockFile then
    let nPos := files.infoLastBlockFile.nUndoSize
    let files := {files with infoLastBlockFile := {files.infoLastBlockFile with nUndoSize := nPos+nAddSize}}
    if env.WriteBlockFileInfo = false then (files,.error (.Error "Failed to write block info"))
    else allocate files.write nPos (nPos+nAddSize)
  else match files.infos[nFile]? with
    | none => (files,.error (.Error "Failed to read block info"))
    | some info =>
      if env.WriteBlockFileInfo = false then (files,.error (.Error "Failed to write block info"))
      else allocate {files with infos := files.infos.insert nFile {info with nUndoSize := info.nUndoSize+nAddSize}} info.nUndoSize
        (info.nUndoSize+nAddSize)

/-- The lines of `LoadBlockIndexDB` about block files, in a new process. -/
def LoadBlockIndexDB (files : BlockFiles) : BlockFiles := files.enter (files.lastBlockFile.getD 0)

/-- The record of a file, in memory or in the database. -/
def info (files : BlockFiles) (nFile : Nat) : BlockFileInfo :=
  if nFile = files.nLastBlockFile then files.infoLastBlockFile else files.stored nFile

/-- The first file from the last one on that takes the block. -/
def FirstWithRoom (files : BlockFiles) (nAddSize : UInt32) (nFile : Nat) : Prop :=
  files.nLastBlockFile ≤ nFile ∧ full nAddSize (files.info nFile) = false ∧
    ∀ earlier, files.nLastBlockFile ≤ earlier → earlier < nFile → full nAddSize (files.info earlier) = true

/-- Both ways to choose a file end here. -/
def moveTo (files : BlockFiles) (nFile : Nat) : BlockFiles :=
  {files with nLastBlockFile := nFile,infoLastBlockFile := files.info nFile}

theorem moveTo_self (files : BlockFiles) : files.moveTo files.nLastBlockFile = files := by simp [moveTo,info]

theorem enter_eq (files : BlockFiles) {nFile : Nat} (other : nFile ≠ files.nLastBlockFile) : files.enter nFile = files.moveTo nFile := by
  rw [enter,moveTo,info,if_neg other]

theorem stored_insert (files : BlockFiles) (nFile other : Nat) (info : BlockFileInfo) :
    stored {files with infos := files.infos.insert nFile info} other = if other = nFile then info else files.stored other := by
  rw [stored,stored,Std.ExtTreeMap.getElem?_insert]
  by_cases same : other = nFile
  · simp [same]
  · simp [same,Ne.symm same]

/-- A new record for a file, in memory too if it is the last one. -/
def setInfo (files : BlockFiles) (nFile : Nat) (info : BlockFileInfo) : BlockFiles :=
  if nFile = files.nLastBlockFile then {files with infoLastBlockFile := info}.write
  else {files with infos := files.infos.insert nFile info}

theorem setInfo_stored (files : BlockFiles) (nFile : Nat) (info : BlockFileInfo) : (files.setInfo nFile info).stored nFile = info := by
  rw [setInfo]
  split_ifs with last
  · exact (stored_insert _ _ _ _).trans (if_pos last)
  · rw [stored_insert,if_pos rfl]

theorem setInfo_info (files : BlockFiles) (nFile : Nat) (info : BlockFileInfo) : (files.setInfo nFile info).info nFile = info := by
  by_cases last : nFile = files.nLastBlockFile
  · rw [setInfo,if_pos last]
    exact if_pos last
  · have stored := files.setInfo_stored nFile info
    rw [setInfo,if_neg last] at stored ⊢
    exact (if_neg last).trans stored

/-- A call that finds a position writes the grown record; one that fails may keep it in
    memory. -/
theorem record_cases {env : FileEnv} {files files' : BlockFiles} {pos : CDiskBlockPos} {nAddSize nHeight : UInt32} {nTime : UInt64}
    {fKnown fUpdatedLast : Bool} {found : Except Reject CDiskBlockPos}
    (recorded : files.record env pos nAddSize nHeight nTime fKnown fUpdatedLast = (files',found)) :
    (files' = files.grow nAddSize nHeight nTime ∧ ∃ reject, found = .error reject) ∨
      found = .ok pos ∧ ∃ last, files' =
        {files.setInfo files.nLastBlockFile (files.grow nAddSize nHeight nTime).infoLastBlockFile with lastBlockFile := last} := by
  rw [record] at recorded
  split_ifs at recorded
  · obtain ⟨rfl,rfl⟩ := Prod.mk.inj recorded
    exact .inl ⟨rfl,_,rfl⟩
  · obtain ⟨rfl,rfl⟩ := Prod.mk.inj recorded
    exact .inl ⟨rfl,_,rfl⟩
  all_goals
    obtain ⟨rfl,rfl⟩ := Prod.mk.inj recorded
    rw [setInfo,if_pos rfl]
    exact .inr ⟨rfl,_,rfl⟩

theorem FindUndoPos_cases {env : FileEnv} {files files' : BlockFiles} {nFile : Nat} {nAddSize : UInt32} {found : Except Reject CDiskBlockPos}
    (searched : files.FindUndoPos env nFile nAddSize = (files',found)) :
    let info := files.info nFile
    let grown := {info with nUndoSize := info.nUndoSize+nAddSize}
    (∃ reject, found = .error reject ∧ (files' = files ∨ nFile = files.nLastBlockFile ∧ files' = {files with infoLastBlockFile := grown})) ∨
      files' = files.setInfo nFile grown ∧ ∀ pos, found = .ok pos → pos = ⟨nFile,info.nUndoSize.toNat⟩ := by
  have allocated (files : BlockFiles) (nPos nNewSize : UInt32)
      (ended : (if preallocate env UNDOFILE_CHUNK_SIZE nPos nNewSize then (files,.ok ⟨nFile,nPos.toNat⟩) else (files,.error (.Error ""))) =
        (files',found)) : files' = files ∧ ∀ pos, found = .ok pos → pos = ⟨nFile,nPos.toNat⟩ := by
    split_ifs at ended <;> obtain ⟨rfl,rfl⟩ := Prod.mk.inj ended
    · exact ⟨rfl,fun pos same => (Except.ok.inj same).symm⟩
    · exact ⟨rfl,by simp⟩
  intro info grown
  rw [FindUndoPos] at searched
  by_cases last : nFile = files.nLastBlockFile
  · have held : info = files.infoLastBlockFile := if_pos last
    simp only [if_pos last,← held] at searched
    by_cases failed : env.WriteBlockFileInfo = false
    · rw [if_pos failed] at searched
      obtain ⟨rfl,rfl⟩ := Prod.mk.inj searched
      exact .inl ⟨_,rfl,.inr ⟨last,rfl⟩⟩
    · rw [if_neg failed] at searched
      rw [setInfo,if_pos last]
      exact .inr (allocated _ _ _ searched)
  · simp only [if_neg last] at searched
    split at searched
    · obtain ⟨rfl,rfl⟩ := Prod.mk.inj searched
      exact .inl ⟨_,rfl,.inl rfl⟩
    case h_2 found present =>
      have held : info = found := by
        change (if nFile = files.nLastBlockFile then files.infoLastBlockFile else files.stored nFile) = found
        rw [if_neg last,stored,present]
        rfl
      rw [← held] at searched
      by_cases failed : env.WriteBlockFileInfo = false
      · rw [if_pos failed] at searched
        obtain ⟨rfl,rfl⟩ := Prod.mk.inj searched
        exact .inl ⟨_,rfl,.inl rfl⟩
      · rw [if_neg failed] at searched
        rw [setInfo,if_neg last]
        exact .inr (allocated _ _ _ searched)

/-- Some number is past every file that has a record. -/
theorem unrecorded (files : BlockFiles) : ∃ bound, ∀ nFile, bound ≤ nFile → files.stored nFile = {} := by
  refine ⟨files.infos.keys.sum+1,fun nFile past => ?_⟩
  rw [stored]
  cases found : files.infos[nFile]? with
  | none => rfl
  | some info =>
    have key : nFile ∈ files.infos.keys := by
      rw [Std.ExtTreeMap.mem_keys,Std.ExtTreeMap.mem_iff_isSome_getElem?,found]
      rfl
    have within := List.single_le_sum (fun _ _ => Nat.zero_le _) nFile key
    omega

/-- A block that fits into an empty file finds one with room. -/
theorem leaveFull_ends {nAddSize : UInt32} (small : nAddSize < MAX_BLOCKFILE_SIZE) (files : BlockFiles) (fUpdatedLast : Bool) :
    ∃ fuel, (leaveFull nAddSize fuel files fUpdatedLast).isSome := by
  obtain ⟨bound,empty⟩ := files.unrecorded
  have fresh : full nAddSize {} = false := by simpa [full] using small
  obtain ⟨left,sum⟩ : ∃ left, bound ≤ files.nLastBlockFile+1+left := ⟨bound,by omega⟩
  induction left generalizing files fUpdatedLast with
  | zero =>
    refine ⟨2,?_⟩
    rw [leaveFull]
    split_ifs
    · rw [leaveFull,enter,empty _ sum,fresh]
      rfl
    · rfl
  | succ left ih =>
    by_cases filled : full nAddSize files.infoLastBlockFile = true
    · obtain ⟨fuel,ended⟩ := ih (files.enter (files.nLastBlockFile+1)) true empty (by change bound ≤ files.nLastBlockFile+1+1+left; omega)
      exact ⟨fuel+1,by rwa [leaveFull,if_pos filled]⟩
    · exact ⟨1,by rw [leaveFull,if_neg filled]; rfl⟩

theorem leaveFull_room {nAddSize : UInt32} {fuel : Nat} {files files' : BlockFiles} {fUpdatedLast last : Bool}
    (left : leaveFull nAddSize fuel files fUpdatedLast = some (files',last)) :
    ∃ nFile, files.FirstWithRoom nAddSize nFile ∧ files' = files.moveTo nFile := by
  induction fuel generalizing files fUpdatedLast with
  | zero => contradiction
  | succ fuel ih =>
    have here : files.info files.nLastBlockFile = files.infoLastBlockFile := if_pos rfl
    rw [leaveFull] at left
    split at left
    case isTrue filled =>
      obtain ⟨nFile,⟨least,room,before⟩,rfl⟩ := ih left
      change files.nLastBlockFile+1 ≤ nFile at least
      have later : ∀ g, files.nLastBlockFile+1 ≤ g → (files.enter (files.nLastBlockFile+1)).info g = files.info g := by
        intro g above
        have apart : g ≠ files.nLastBlockFile := by omega
        rw [info,info,if_neg apart]
        change (if g = files.nLastBlockFile+1 then files.stored (files.nLastBlockFile+1) else files.stored g) = _
        split_ifs with same
        · rw [same]
        · rfl
      rw [later nFile least] at room
      refine ⟨nFile,⟨by omega,room,fun earlier above below => ?_⟩,?_⟩
      · rcases above.eq_or_lt with rfl | above
        · rwa [here]
        · rw [← later earlier above]
          exact before earlier above below
      · rw [moveTo,later nFile least]
        rfl
    case isFalse room =>
      obtain ⟨rfl,_⟩ := Prod.mk.inj (Option.some.inj left)
      exact ⟨files.nLastBlockFile,⟨le_rfl,by rw [here]; simpa using room,fun _ above below => by omega⟩,files.moveTo_self.symm⟩

end BlockFiles

/-- The bytes of a file that a call gave out, up to but not including `stop`. -/
structure Used where
  nFile : Nat
  start : Nat
  stop : Nat
  fresh : Bool
deriving DecidableEq

/-- The size of a block is with its header of eight bytes; a known position is where the
    block begins after its header. -/
def Used.ofBlock (pos : CDiskBlockPos) (nAddSize : UInt32) (fKnown : Bool) : Used :=
  let start := if fKnown then pos.nPos-8 else pos.nPos
  ⟨pos.nFile,start,start+nAddSize.toNat,!fKnown⟩

def Used.ofUndo (pos : CDiskBlockPos) (nAddSize : UInt32) : Used := ⟨pos.nFile,pos.nPos,pos.nPos+nAddSize.toNat,true⟩

/-- A range given out afresh has no byte of an earlier one of the file. -/
def Used.Apart (earlier later : Used) : Prop :=
  later.fresh = true → earlier.nFile = later.nFile → earlier.stop ≤ later.start ∨ later.stop ≤ earlier.start

inductive PosCall
  | block (pos : CDiskBlockPos) (nAddSize nHeight : UInt32) (nTime : UInt64) (fKnown : Bool)
  | undo (nFile : Nat) (nAddSize : UInt32)
  | restart

/-- The allocator and the ranges it gave out, in their order. -/
structure Layout where
  files : BlockFiles := {}
  blocks : List Used := []
  undos : List Used := []

namespace Layout

def call (fuel : Nat) (env : FileEnv) (placed : Layout) : PosCall → Option Layout
  | .block pos nAddSize nHeight nTime fKnown =>
    (placed.files.FindBlockPos fuel env pos nAddSize nHeight nTime fKnown).map fun (files,found) =>
      {placed with files := files,blocks := placed.blocks ++ (found.toOption.map (Used.ofBlock · nAddSize fKnown)).toList}
  | .undo nFile nAddSize =>
    let (files,found) := placed.files.FindUndoPos env nFile nAddSize
    some {placed with files := files,undos := placed.undos ++ (found.toOption.map (Used.ofUndo · nAddSize)).toList}
  | .restart => some {placed with files := placed.files.LoadBlockIndexDB}

/-- A known block begins no later than where its file's size ends, and no size wraps. -/
def Fits (files : BlockFiles) : PosCall → Prop
  | .block pos nAddSize _ _ true => pos.nPos ≤ (files.info pos.nFile).nSize.toNat+8 ∧ (files.info pos.nFile).nSize.toNat+nAddSize.toNat < 2^32
  | .block _ nAddSize _ _ false => ∀ nFile, files.FirstWithRoom nAddSize nFile → (files.info nFile).nSize.toNat+nAddSize.toNat < 2^32
  | .undo nFile nAddSize => (files.info nFile).nUndoSize.toNat+nAddSize.toNat < 2^32
  | .restart => True

/-- The allocator after calls that fit, from a node without block files. -/
inductive Run : Layout → Prop
  | start : Run {}
  | call {fuel : Nat} {env : FileEnv} {placed placed' : Layout} {c : PosCall} (run : Run placed) (fits : Fits placed.files c)
      (called : placed.call fuel env c = some placed') : Run placed'

end Layout

/-- Each range ends within the size of its file, in memory and in the database. -/
def CoveredBy (size : BlockFileInfo → UInt32) (files : BlockFiles) (ranges : List Used) : Prop :=
  ∀ r ∈ ranges, r.stop ≤ (size (files.stored r.nFile)).toNat ∧ r.stop ≤ (size (files.info r.nFile)).toNat

namespace CoveredBy
variable {size : BlockFileInfo → UInt32} {files : BlockFiles} {ranges : List Used}

theorem moveTo (covered : CoveredBy size files ranges) (nFile : Nat) : CoveredBy size (files.moveTo nFile) ranges := by
  intro r member
  refine ⟨(covered r member).1,?_⟩
  rw [BlockFiles.info]
  split_ifs with last
  · have within := (covered r member).2
    rwa [last] at within
  · exact (covered r member).1

theorem enter (covered : CoveredBy size files ranges) (nFile : Nat) : CoveredBy size (files.enter nFile) ranges := by
  intro r member
  refine ⟨(covered r member).1,?_⟩
  rw [BlockFiles.info]
  split_ifs with last
  · have within := (covered r member).1
    rwa [last] at within
  · exact (covered r member).1

/-- The last file's record may grow in memory. -/
theorem grow (covered : CoveredBy size files ranges) {info : BlockFileInfo}
    (more : (size files.infoLastBlockFile).toNat ≤ (size info).toNat) : CoveredBy size {files with infoLastBlockFile := info} ranges := by
  intro r member
  refine ⟨(covered r member).1,?_⟩
  have within := (covered r member).2
  rw [BlockFiles.info] at within ⊢
  split_ifs at within ⊢ with last
  · exact within.trans more
  · exact within

/-- A record may be written that covers the ranges of its file. -/
theorem put (covered : CoveredBy size files ranges) {nFile : Nat} {info : BlockFileInfo}
    (more : ∀ r ∈ ranges, r.nFile = nFile → r.stop ≤ (size info).toNat) :
    CoveredBy size {files with infos := files.infos.insert nFile info} ranges := by
  intro r member
  have stored : r.stop ≤ (size (BlockFiles.stored {files with infos := files.infos.insert nFile info} r.nFile)).toNat := by
    rw [BlockFiles.stored_insert]
    split_ifs with same
    · exact more r member same
    · exact (covered r member).1
  refine ⟨stored,?_⟩
  have within := (covered r member).2
  rw [BlockFiles.info] at within ⊢
  split_ifs at within ⊢ with last
  · exact within
  · exact stored

theorem write (covered : CoveredBy size files ranges) : CoveredBy size files.write ranges := by
  refine covered.put fun r member last => ?_
  have within := (covered r member).2
  rwa [BlockFiles.info,if_pos last] at within

theorem append (covered : CoveredBy size files ranges) {r : Used} (stored : r.stop ≤ (size (files.stored r.nFile)).toNat)
    (held : r.stop ≤ (size (files.info r.nFile)).toNat) : CoveredBy size files (ranges ++ [r]) := by
  intro other member
  rcases List.mem_append.mp member with member | member
  · exact covered other member
  · rw [List.mem_singleton.mp member]
    exact ⟨stored,held⟩

/-- Past the size of its file a range meets none of those given out. -/
theorem apart (covered : CoveredBy size files ranges) {r : Used} (past : (size (files.info r.nFile)).toNat ≤ r.start) :
    ∀ earlier ∈ ranges, Used.Apart earlier r := by
  intro earlier member _ same
  have within := (covered earlier member).2
  rw [same] at within
  exact .inl (within.trans past)

theorem setInfo (covered : CoveredBy size files ranges) {nFile : Nat} {info : BlockFileInfo}
    (more : (size (files.info nFile)).toNat ≤ (size info).toNat) : CoveredBy size (files.setInfo nFile info) ranges := by
  rw [BlockFiles.setInfo]
  split_ifs with last
  · rw [BlockFiles.info,if_pos last] at more
    exact (covered.grow more).write
  · refine covered.put fun r member same => ?_
    have within := (covered r member).2
    rw [same] at within
    exact within.trans more

end CoveredBy

namespace Layout

/-- What holds of the allocator and the ranges it gave out, after calls that fit. -/
structure Sound (placed : Layout) : Prop where
  blocks : CoveredBy (·.nSize) placed.files placed.blocks
  undos : CoveredBy (·.nUndoSize) placed.files placed.undos
  blocksApart : placed.blocks.Pairwise Used.Apart
  undosApart : placed.undos.Pairwise Used.Apart
  below : ∀ r ∈ placed.blocks, r.fresh = true → r.stop < MAX_BLOCKFILE_SIZE.toNat

/-- A block recorded in the last file, at its end or known and with no gap before it. -/
theorem record_sound {env : FileEnv} {files files' : BlockFiles} {blocks undos : List Used} {pos : CDiskBlockPos}
    {nAddSize nHeight : UInt32} {nTime : UInt64} {fKnown fUpdatedLast : Bool} {found : Except Reject CDiskBlockPos}
    (sound : Sound ⟨files,blocks,undos⟩) (same : pos.nFile = files.nLastBlockFile)
    (room : files.infoLastBlockFile.nSize.toNat+nAddSize.toNat < 2^32)
    (start : (Used.ofBlock pos nAddSize fKnown).start ≤ files.infoLastBlockFile.nSize.toNat)
    (atEnd : fKnown = false → pos.nPos = files.infoLastBlockFile.nSize.toNat ∧ BlockFiles.full nAddSize files.infoLastBlockFile = false)
    (recorded : files.record env pos nAddSize nHeight nTime fKnown fUpdatedLast = (files',found)) :
    Sound ⟨files',blocks ++ (found.toOption.map (Used.ofBlock · nAddSize fKnown)).toList,undos⟩ := by
  have held : files.info files.nLastBlockFile = files.infoLastBlockFile := if_pos rfl
  have size : (files.grow nAddSize nHeight nTime).infoLastBlockFile.nSize.toNat = files.infoLastBlockFile.nSize.toNat+nAddSize.toNat := by
    change (files.infoLastBlockFile.nSize+nAddSize).toNat = _
    rw [UInt32.toNat_add]
    exact Nat.mod_eq_of_lt room
  have larger : files.infoLastBlockFile.nSize.toNat ≤ (files.grow nAddSize nHeight nTime).infoLastBlockFile.nSize.toNat := by
    rw [size]
    exact Nat.le_add_right _ _
  obtain ⟨covered,undosCovered,blocksApart,undosApart,below⟩ := sound
  rcases BlockFiles.record_cases recorded with ⟨rfl,reject,rfl⟩ | ⟨rfl,last,rfl⟩
  · simp only [Except.toOption,Option.map_none,Option.toList_none,List.append_nil]
    exact ⟨covered.grow larger,undosCovered.grow le_rfl,blocksApart,undosApart,below⟩
  · simp only [Except.toOption,Option.map_some,Option.toList_some]
    have stop : (Used.ofBlock pos nAddSize fKnown).stop ≤ (files.grow nAddSize nHeight nTime).infoLastBlockFile.nSize.toNat := by
      rw [size]
      exact Nat.add_le_add_right start _
    refine ⟨CoveredBy.append (covered.setInfo (by rwa [held])) ?_ ?_,undosCovered.setInfo (by rw [held]; exact le_rfl),?_,undosApart,?_⟩
    · change _ ≤ ((BlockFiles.setInfo _ _ _).stored pos.nFile).nSize.toNat
      rwa [same,BlockFiles.setInfo_stored]
    · change _ ≤ ((BlockFiles.setInfo _ _ _).info pos.nFile).nSize.toNat
      rwa [same,BlockFiles.setInfo_info]
    · refine List.pairwise_append.mpr ⟨blocksApart,List.pairwise_singleton _ _,fun earlier member later only => ?_⟩
      obtain rfl := List.mem_singleton.mp only
      intro fresh
      have new : fKnown = false := by simpa [Used.ofBlock] using fresh
      refine covered.apart ?_ earlier member fresh
      change (files.info pos.nFile).nSize.toNat ≤ _
      rw [same,held,Used.ofBlock,new]
      exact (atEnd new).1.ge
    · intro r member fresh
      rcases List.mem_append.mp member with member | member
      · exact below r member fresh
      · obtain rfl := List.mem_singleton.mp member
        have new : fKnown = false := by simpa [Used.ofBlock] using fresh
        have notFull := (atEnd new).2
        rw [BlockFiles.full,decide_eq_false_iff_not,ge_iff_le,UInt32.not_le] at notFull
        exact stop.trans_lt (UInt32.lt_iff_toNat_lt.mp notFull)

theorem Sound.moveTo {files : BlockFiles} {blocks undos : List Used} (sound : Sound ⟨files,blocks,undos⟩) (nFile : Nat) :
    Sound ⟨files.moveTo nFile,blocks,undos⟩ :=
  ⟨sound.blocks.moveTo nFile,sound.undos.moveTo nFile,sound.blocksApart,sound.undosApart,sound.below⟩

theorem block_sound {fuel : Nat} {env : FileEnv} {files files' : BlockFiles} {blocks undos : List Used} {pos : CDiskBlockPos}
    {nAddSize nHeight : UInt32} {nTime : UInt64} {fKnown : Bool} {found : Except Reject CDiskBlockPos} (sound : Sound ⟨files,blocks,undos⟩)
    (fits : Fits files (.block pos nAddSize nHeight nTime fKnown))
    (searched : files.FindBlockPos fuel env pos nAddSize nHeight nTime fKnown = some (files',found)) :
    Sound ⟨files',blocks ++ (found.toOption.map (Used.ofBlock · nAddSize fKnown)).toList,undos⟩ := by
  cases fKnown with
  | true =>
    have moved : ∃ updated, (if files.nLastBlockFile ≠ pos.nFile then (files.enter pos.nFile,true) else (files,false)) =
        (files.moveTo pos.nFile,updated) := by
      by_cases last : files.nLastBlockFile = pos.nFile
      · exact ⟨false,by rw [if_neg (not_not.mpr last),← last,files.moveTo_self]⟩
      · exact ⟨true,by rw [if_pos last,files.enter_eq (Ne.symm last)]⟩
    obtain ⟨updated,moved⟩ := moved
    rw [BlockFiles.FindBlockPos,if_pos rfl,moved] at searched
    refine record_sound (sound.moveTo pos.nFile) rfl fits.2 ?_ (by simp) (Option.some.inj searched)
    have near := fits.1
    change pos.nPos-8 ≤ (files.info pos.nFile).nSize.toNat
    omega
  | false =>
    rw [BlockFiles.FindBlockPos,if_neg (by simp)] at searched
    obtain ⟨⟨_,updated⟩,left,recorded⟩ := Option.bind_eq_some_iff.mp searched
    obtain ⟨nFile,room,rfl⟩ := BlockFiles.leaveFull_room left
    exact record_sound (sound.moveTo nFile) rfl (fits nFile room) le_rfl (fun _ => ⟨rfl,room.2.1⟩) (Option.some.inj recorded)

theorem undo_sound {env : FileEnv} {files files' : BlockFiles} {blocks undos : List Used} {nFile : Nat} {nAddSize : UInt32}
    {found : Except Reject CDiskBlockPos} (sound : Sound ⟨files,blocks,undos⟩) (fits : Fits files (.undo nFile nAddSize))
    (searched : files.FindUndoPos env nFile nAddSize = (files',found)) :
    Sound ⟨files',blocks,undos ++ (found.toOption.map (Used.ofUndo · nAddSize)).toList⟩ := by
  have size : ((files.info nFile).nUndoSize+nAddSize).toNat = (files.info nFile).nUndoSize.toNat+nAddSize.toNat := by
    rw [UInt32.toNat_add]
    exact Nat.mod_eq_of_lt fits
  obtain ⟨blocksCovered,covered,blocksApart,apart,below⟩ := sound
  rcases BlockFiles.FindUndoPos_cases searched with ⟨reject,rfl,same⟩ | ⟨rfl,position⟩
  · simp only [Except.toOption,Option.map_none,Option.toList_none,List.append_nil]
    rcases same with rfl | ⟨last,rfl⟩
    · exact ⟨blocksCovered,covered,blocksApart,apart,below⟩
    · have held : files.info nFile = files.infoLastBlockFile := if_pos last
      rw [held] at size ⊢
      refine ⟨blocksCovered.grow le_rfl,covered.grow ?_,blocksApart,apart,below⟩
      change _ ≤ (files.infoLastBlockFile.nUndoSize+nAddSize).toNat
      rw [size]
      exact Nat.le_add_right _ _
  · let grown : BlockFileInfo := {files.info nFile with nUndoSize := (files.info nFile).nUndoSize+nAddSize}
    have blocksKept : CoveredBy (·.nSize) (files.setInfo nFile grown) blocks := blocksCovered.setInfo le_rfl
    have kept : CoveredBy (·.nUndoSize) (files.setInfo nFile grown) undos := by
      refine covered.setInfo ?_
      change _ ≤ ((files.info nFile).nUndoSize+nAddSize).toNat
      rw [size]
      exact Nat.le_add_right _ _
    cases found with
    | error reject =>
      simp only [Except.toOption,Option.map_none,Option.toList_none,List.append_nil]
      exact ⟨blocksKept,kept,blocksApart,apart,below⟩
    | ok pos =>
      obtain rfl := position pos rfl
      simp only [Except.toOption,Option.map_some,Option.toList_some]
      refine ⟨blocksKept,kept.append ?_ ?_,blocksApart,?_,below⟩
      · change _ ≤ ((BlockFiles.setInfo _ _ _).stored nFile).nUndoSize.toNat
        rw [BlockFiles.setInfo_stored]
        exact size.ge
      · change _ ≤ ((BlockFiles.setInfo _ _ _).info nFile).nUndoSize.toNat
        rw [BlockFiles.setInfo_info]
        exact size.ge
      · refine List.pairwise_append.mpr ⟨apart,List.pairwise_singleton _ _,fun earlier member later only => ?_⟩
        obtain rfl := List.mem_singleton.mp only
        exact covered.apart le_rfl earlier member

/-- After a call that does not fit, the size of the file ends before the range it gave out. -/
theorem record_fits {env : FileEnv} {files files' : BlockFiles} {pos : CDiskBlockPos} {nAddSize nHeight : UInt32} {nTime : UInt64}
    {fKnown fUpdatedLast : Bool} (same : pos.nFile = files.nLastBlockFile)
    (recorded : files.record env pos nAddSize nHeight nTime fKnown fUpdatedLast = (files',.ok pos))
    (within : (Used.ofBlock pos nAddSize fKnown).stop ≤ (files'.info pos.nFile).nSize.toNat) :
    (Used.ofBlock pos nAddSize fKnown).start ≤ files.infoLastBlockFile.nSize.toNat ∧
      files.infoLastBlockFile.nSize.toNat+nAddSize.toNat < 2^32 := by
  have stop : (Used.ofBlock pos nAddSize fKnown).stop = (Used.ofBlock pos nAddSize fKnown).start+nAddSize.toNat := rfl
  rcases BlockFiles.record_cases recorded with ⟨_,_,failed⟩ | ⟨_,last,rfl⟩
  · contradiction
  · change _ ≤ ((BlockFiles.setInfo _ _ _).info pos.nFile).nSize.toNat at within
    rw [same,BlockFiles.setInfo_info] at within
    change _ ≤ (files.infoLastBlockFile.nSize+nAddSize).toNat at within
    rw [UInt32.toNat_add,stop] at within
    have bound := files.infoLastBlockFile.nSize.toNat_lt
    have size := nAddSize.toNat_lt
    omega

theorem Sound.call {fuel : Nat} {env : FileEnv} {placed placed' : Layout} {c : PosCall} (sound : Sound placed) (fits : Fits placed.files c)
    (called : placed.call fuel env c = some placed') : Sound placed' := by
  cases c with
  | block pos nAddSize nHeight nTime fKnown =>
    obtain ⟨⟨files',found⟩,searched,rfl⟩ := Option.map_eq_some_iff.mp called
    exact block_sound sound fits searched
  | undo nFile nAddSize =>
    obtain rfl := Option.some.inj called
    exact undo_sound sound fits rfl
  | restart =>
    obtain rfl := Option.some.inj called
    exact ⟨sound.blocks.enter _,sound.undos.enter _,sound.blocksApart,sound.undosApart,sound.below⟩

theorem Run.sound {placed : Layout} (run : Run placed) : Sound placed := by
  induction run with
  | start => exact ⟨by simp [CoveredBy],by simp [CoveredBy],List.Pairwise.nil,List.Pairwise.nil,by simp⟩
  | call _ fits called ih => exact ih.call fits called

/-- While no known block begins past the size of its file and no size wraps, every range given
    out afresh is apart from those before it in its file, block ranges end below the bound of a
    file, and a block that fits into an empty file finds its place. -/
theorem FindBlockPos_apart {placed : Layout} (run : Run placed) :
    placed.blocks.Pairwise Used.Apart ∧ placed.undos.Pairwise Used.Apart ∧
    (∀ r ∈ placed.blocks, r.fresh = true → r.stop < MAX_BLOCKFILE_SIZE.toNat) ∧
    ∀ env pos nAddSize nHeight nTime, nAddSize < MAX_BLOCKFILE_SIZE →
      ∃ fuel, (placed.files.FindBlockPos fuel env pos nAddSize nHeight nTime false).isSome := by
  have sound := run.sound
  refine ⟨sound.blocksApart,sound.undosApart,sound.below,fun env pos nAddSize nHeight nTime small => ?_⟩
  obtain ⟨fuel,ended⟩ := BlockFiles.leaveFull_ends small placed.files false
  refine ⟨fuel,?_⟩
  rw [BlockFiles.FindBlockPos,if_neg (by simp)]
  obtain ⟨left,ended⟩ := Option.isSome_iff_exists.mp ended
  rw [ended]
  rfl

/-- Enough disk space, and a database that takes its writes. -/
def ready : FileEnv := ⟨fun _ => true,true,true⟩

/-- A new block and a known one behind it. -/
def fitting : Option Layout :=
  (call 1 ready {} (.block ⟨0,0⟩ 300 1 0 false)).bind fun placed => placed.call 1 ready (.block ⟨0,308⟩ 200 2 0 true)

theorem fitting_apart : (fitting.getD {}).blocks = [⟨0,0,300,true⟩,⟨0,300,500,false⟩] ∧ (fitting.getD {}).blocks.Pairwise Used.Apart := by
  have size : (call 1 ready {} (.block ⟨0,0⟩ 300 1 0 false)).map (fun placed => (placed.files.info 0).nSize) = some 300 := by decide +kernel
  obtain ⟨first,called,size⟩ := Option.map_eq_some_iff.mp size
  have run : Run first := by
    refine Run.call .start (fun nFile room => ?_) called
    rw [BlockFiles.info]
    split_ifs
    · decide
    · simp [BlockFiles.stored]
  have fits : Fits first.files (.block ⟨0,308⟩ 200 2 0 true) := by
    change _ ≤ (first.files.info 0).nSize.toNat+8 ∧ (first.files.info 0).nSize.toNat+_ < _
    rw [size]
    decide
  have second : fitting = first.call 1 ready (.block ⟨0,308⟩ 200 2 0 true) := by rw [fitting,called]; rfl
  have both : fitting.isSome = true := by decide +kernel
  obtain ⟨placed,there⟩ := Option.isSome_iff_exists.mp both
  have apart := (FindBlockPos_apart (run.call fits (second.symm.trans there))).1
  refine ⟨by decide +kernel,?_⟩
  rwa [there]

/-- A known block of 300 bytes with its header at 1000 leaves the size of its file at 300; the
    next 2000 bytes are given out over it. -/
theorem known_block_overwritten :
    ¬ ∀ placed, (call 1 ready {} (.block ⟨0,1008⟩ 300 1 0 true)).bind (call 1 ready · (.block ⟨0,0⟩ 2000 2 0 false)) = some placed →
      placed.blocks.Pairwise Used.Apart := by
  intro apart
  have blocks : ((call 1 ready {} (.block ⟨0,1008⟩ 300 1 0 true)).bind (call 1 ready · (.block ⟨0,0⟩ 2000 2 0 false))).map (·.blocks) =
      some [⟨0,1000,1300,false⟩,⟨0,300,2300,true⟩] := by decide +kernel
  obtain ⟨placed,ran,blocks⟩ := Option.map_eq_some_iff.mp blocks
  have overlap := apart placed ran
  rw [blocks,List.pairwise_pair] at overlap
  exact absurd (overlap rfl rfl) (by decide)

end Layout
end Tetra
