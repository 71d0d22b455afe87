import Mathlib
import Tetra.BlockReading
import Tetra.BufferedFile
import Tetra.ConnectBest

/-!
Loading the blocks of a file in which records lie among other bytes. The loader looks for
the bytes that start a record, and where it cannot read one goes back to the byte after
its first.
-/
namespace Tetra
open Codec

def pchMessageStart : List UInt8 := [0x0a,0x11,0xc3,0x23]

/-- What is known of a block file: how many of its bytes are indexed. -/
structure CBlockFileInfo where
  nSize : Nat
  fits : nSize < 2^32

/-- What the loader calls. `ProcessBlock` returns its result and `state.IsError()`, or the
    text of what it throws. -/
structure BlockRules (σ : Type) where
  ReadBlockFileInfo : σ → Nat → Option CBlockFileInfo
  ProcessBlock : σ → CBlock → Option CDiskBlockPos → σ × Except String (Bool × Bool)

/-- A call of `ProcessBlock`: its arguments, where the block is in the file, and whether an
    error came of it. -/
structure Processed where
  nBlockPos : Nat
  nEnd : Nat
  block : CBlock
  dbp : Option CDiskBlockPos
  isError : Bool

/-- The variables of `LoadExternalBlockFile`, and the calls of `ProcessBlock` so far. -/
structure LoadState (σ : Type) where
  blkdat : CBufferedFile
  nRewind : Nat
  node : σ
  nLoaded : Nat := 0
  processed : List Processed := []

/-- How a turn of the loop ends. -/
inductive LoadTurn
  | nextByte
  | undecoded
  | processed
  | stopped
  | endless
deriving DecidableEq

/-- What an exception does to a turn. -/
def StreamError.turned : StreamError → LoadTurn → LoadTurn
  | failure _, turned => turned
  | endless, _ => .endless

/-- The message start and the size of a record; none where a block does not start so. -/
def readStart : Streamed (Option Nat) := do
  let buf ← Piecewise.bytes 4
  if buf ≠ pchMessageStart then return none
  else
    let nSize ← Streamed.readUInt 4
    return if nSize < 80 ∨ nSize > MAX_BLOCK_SIZE then none else some nSize

/-- `blkdat >> obj` -/
def CBufferedFile.extract {α : Type} (blkdat : CBufferedFile) (reading : Streamed α) : CBufferedFile × Except StreamError α :=
  reading.run CBufferedFile.read StreamError.failure blkdat

namespace LoadState

variable {σ : Type}

/-- Locates a header. -/
def locate (s : LoadState σ) : LoadState σ × Except StreamError (Option Nat) :=
  let (blkdat,found) := (s.blkdat.SetPos s.nRewind).1.SetLimit.1.FindByte (pchMessageStart.headD 0)
  match found with
  | .error e => ({s with blkdat := blkdat,nRewind := (s.nRewind+1)%2^64},.error e)
  | .ok _ =>
    let (after,nSize) := blkdat.extract readStart
    ({s with blkdat := after,nRewind := (blkdat.GetPos+1)%2^64},nSize)

/-- Processes a block. `dbp->nPos` is a 32-bit number. -/
def process (rules : BlockRules σ) (nStartByte : Nat) (dbp : Option CDiskBlockPos) (s : LoadState σ) (nBlockPos : Nat) (block : CBlock) : LoadState σ × LoadTurn :=
  if nBlockPos ≥ nStartByte then
    let dbp := dbp.map fun dbp => {dbp with nPos := nBlockPos%2^32}
    let (node,returned) := rules.ProcessBlock s.node block dbp
    let isError := match returned with
      | .ok (_,isError) => isError
      | .error _ => false
    let nLoaded := match returned with
      | .ok (true,_) => s.nLoaded+1
      | _ => s.nLoaded
    ({s with node := node,nLoaded := nLoaded,processed := s.processed ++ [⟨nBlockPos,s.blkdat.GetPos,block,dbp,isError⟩]},
      if isError then .stopped else .processed)
  else (s,.processed)

/-- Reads a block, and processes it. -/
def readRecord (rules : BlockRules σ) (nStartByte : Nat) (dbp : Option CDiskBlockPos) (s : LoadState σ) (nSize : Nat) : LoadState σ × LoadTurn :=
  let nBlockPos := s.blkdat.GetPos
  let (blkdat,read) := (s.blkdat.SetLimit ((nBlockPos+nSize)%2^64)).1.extract (Streamed.readBlock (KeyBuffer.headed 0xFF))
  match read with
  | .error e => ({s with blkdat := blkdat},e.turned .undecoded)
  | .ok block => process rules nStartByte dbp {s with blkdat := blkdat,nRewind := blkdat.GetPos} nBlockPos block

/-- A turn of the loop. -/
def turn (rules : BlockRules σ) (nStartByte : Nat) (dbp : Option CDiskBlockPos) (s : LoadState σ) : LoadState σ × LoadTurn :=
  match s.locate with
  | (s,.error e) => (s,e.turned .stopped)
  | (s,.ok none) => (s,.nextByte)
  | (s,.ok (some nSize)) => readRecord rules nStartByte dbp s nSize

def goesOn (s : LoadState σ) : Bool := s.blkdat.good && !s.blkdat.eof

/-- The loop; none is a run without an end. -/
def load (rules : BlockRules σ) (nStartByte : Nat) (dbp : Option CDiskBlockPos) : Nat → LoadState σ → Option (LoadState σ)
  | 0, _ => none
  | fuel+1, s =>
    if s.goesOn then
      match turn rules nStartByte dbp s with
      | (s,.stopped) => some s
      | (_,.endless) => none
      | (s,_) => load rules nStartByte dbp fuel s
    else some s

/-- What is known of the file, and the loader before its loop. -/
def indexed (rules : BlockRules σ) (node : σ) (dbp : Option CDiskBlockPos) : Option CBlockFileInfo :=
  dbp.bind fun dbp => rules.ReadBlockFileInfo node dbp.nFile

def opened (rules : BlockRules σ) (bytes : List UInt8) (counts : Nat → Nat) (node : σ) (dbp : Option CDiskBlockPos) : LoadState σ × Nat :=
  let blkdat := CBufferedFile.new bytes counts (2*MAX_BLOCK_SIZE) (MAX_BLOCK_SIZE+8)
  let (blkdat,nStartByte) := match indexed rules node dbp with
    | some info => ((blkdat.Seek info.nSize).1,info.nSize)
    | none => (blkdat,0)
  ({blkdat := blkdat,nRewind := blkdat.GetPos,node := node},nStartByte)

end LoadState

/-- Returns whether a block was loaded. Every turn goes on in the file. -/
def LoadExternalBlockFile {σ : Type} (rules : BlockRules σ) (bytes : List UInt8) (counts : Nat → Nat) (node : σ) (dbp : Option CDiskBlockPos) :
    Option (LoadState σ × Bool) :=
  let (s,nStartByte) := LoadState.opened rules bytes counts node dbp
  (LoadState.load rules nStartByte dbp (bytes.length+2) s).map fun s => (s,decide (s.nLoaded > 0))

/-- A record: its start, and the bytes of a block of a size that is looked for. -/
structure RecordAt (bytes : List UInt8) (r : Nat) (block : CBlock) : Prop where
  fits : block.Fits
  size : 80 ≤ block.Serialize.length ∧ block.Serialize.length ≤ MAX_BLOCK_SIZE
  there : pchMessageStart ++ leBytes 4 block.Serialize.length ++ block.Serialize <+: bytes.drop r

/-! ### Record starts -/

theorem readStart_sized {limit : Nat} (enough : 4 ≤ limit) : Streamed.Sized limit readStart := by
  refine Streamed.Sized.bind (.bytes enough) fun buf => ?_
  split_ifs
  · exact .pure _
  · exact Streamed.Sized.bind (.readUInt enough) fun nSize => .pure _

theorem decodes_start {nSize : Nat} (least : 80 ≤ nSize) (most : nSize ≤ MAX_BLOCK_SIZE) :
    Decodes (Streamed.fromList readStart) (pchMessageStart ++ leBytes 4 nSize) (some nSize) := by
  have narrow : nSize < 256^4 := most.trans_lt (by decide)
  have kept : (if nSize < 80 ∨ nSize > MAX_BLOCK_SIZE then none else some nSize) = some nSize := if_neg (by omega)
  simp only [readStart,Streamed.fromList_bind,Streamed.fromList_bytes]
  refine (decodes_data pchMessageStart).bind ?_
  rw [if_neg (by simp)]
  simp only [Streamed.fromList_bind,Streamed.fromList_readUInt,Streamed.fromList_pure]
  have read := (decodes_uint narrow).return fun nSize => if nSize < 80 ∨ nSize > MAX_BLOCK_SIZE then none else some nSize
  rwa [kept] at read

/-- Four bytes are read, or the eight of a record's start. -/
theorem readStart_rest {bytes rest : List UInt8} {found : Option Nat} (read : Streamed.fromList readStart bytes = .ok (found,rest)) :
    rest.length+4 ≤ bytes.length ∧ bytes.length ≤ rest.length+8 ∧
      ∀ nSize, found = some nSize → nSize ≤ MAX_BLOCK_SIZE ∧ rest.length+8 = bytes.length := by
  obtain ⟨enough,later⟩ := Piecewise.onList_data read
  change (if bytes.take 4 ≠ pchMessageStart then _ else _ : Streamed (Option Nat)).onList _ (bytes.drop 4) = _ at later
  split at later
  · obtain ⟨rfl,rfl⟩ := Prod.mk.inj (Except.ok.inj later)
    rw [List.length_drop]
    exact ⟨by omega,by omega,fun nSize none => by contradiction⟩
  · obtain ⟨more,last⟩ := Piecewise.onList_data later
    obtain ⟨sized,rfl⟩ := Prod.mk.inj (Except.ok.inj last)
    rw [List.length_drop] at more
    rw [List.length_drop,List.length_drop]
    refine ⟨by omega,by omega,fun nSize some => ⟨?_,by omega⟩⟩
    rw [some] at sized
    split at sized
    · contradiction
    · have same := Option.some.inj sized
      omega

theorem readStart_reads {bytes : List UInt8} (enough : 8 ≤ bytes.length) : ∃ found rest, Streamed.fromList readStart bytes = .ok (found,rest) := by
  change ∃ found rest, readStart.onList _ bytes = .ok (found,rest)
  rw [readStart]
  change ∃ found rest, (Piecewise.data 4 _).onList _ bytes = .ok (found,rest)
  rw [Piecewise.onList_next _ _ (by omega)]
  change ∃ found rest, (if bytes.take 4 ≠ pchMessageStart then _ else _ : Streamed (Option Nat)).onList _ (bytes.drop 4) = .ok (found,rest)
  split
  · exact ⟨_,_,rfl⟩
  · change ∃ found rest, (Piecewise.data 4 _).onList _ (bytes.drop 4) = .ok (found,rest)
    rw [Piecewise.onList_next _ _ (by rw [List.length_drop]; omega)]
    exact ⟨_,_,rfl⟩

namespace RecordAt

variable {bytes : List UInt8} {r : Nat} {block : CBlock}

theorem long (record : RecordAt bytes r block) : r+88 ≤ bytes.length := by
  have shorter := record.there.length_le
  have least := record.size.1
  rw [List.length_append,List.length_append,leBytes_length,List.length_drop] at shorter
  have four : pchMessageStart.length = 4 := rfl
  omega

theorem first (record : RecordAt bytes r block) : bytes[r]? = some (pchMessageStart.headD 0) := by
  obtain ⟨rest,split⟩ := record.there
  have head := congrArg (fun list => list[0]?) split
  rw [List.getElem?_drop,Nat.add_zero] at head
  exact head.symm

theorem start (record : RecordAt bytes r block) : ∃ rest, Streamed.fromList readStart (bytes.drop r) = .ok (some block.Serialize.length,rest) := by
  obtain ⟨rest,split⟩ := record.there
  rw [← split,List.append_assoc]
  exact ⟨_,decodes_start record.size.1 record.size.2 _⟩

theorem body (record : RecordAt bytes r block) : (bytes.drop (r+8)).take block.Serialize.length = block.Serialize := by
  obtain ⟨rest,split⟩ := record.there
  have size : (pchMessageStart ++ leBytes 4 block.Serialize.length).length = 8 := by rw [List.length_append,leBytes_length]; rfl
  rw [← List.drop_drop,← split,List.append_assoc,List.drop_append_of_le_length size.ge,List.drop_of_length_le size.le,List.nil_append,
    List.take_left]

end RecordAt

/-- The block of a record is read, and no read of it is larger than the window. -/
theorem RecordAt.decodes {bytes : List UInt8} {r : Nat} {block : CBlock} (record : RecordAt bytes r block) :
    Streamed.fromList (Streamed.readBlock (KeyBuffer.headed 0xFF)) block.Serialize = .ok (block.loaded,[]) ∧
      (Streamed.readBlock (KeyBuffer.headed 0xFF)).Within (MAX_BLOCK_SIZE-8) block.Serialize := by
  have whole := @decodes_block block (KeyBuffer.headed 0xFF) record.fits fun _ => by decide
  have read := whole []
  rw [List.append_nil,← Streamed.fromList_readBlock] at read
  refine ⟨read,?_⟩
  have header := decodes_header record.fits.header
  rw [← Streamed.fromList_readHeader] at header
  have long : block.toCBlockHeader.Serialize.length = 72 := by
    simp only [CBlockHeader.Serialize,List.length_append,intBytes,leBytes_length]
  have form : block.Serialize = block.toCBlockHeader.Serialize ++ (vectorForm CTransaction.Serialize block.vtx ++ bytesForm block.cpbk ++ bytesForm block.vchSig) := by
    rw [CBlock.Serialize,List.append_assoc,List.append_assoc,List.append_assoc]
  have size := record.size.2
  rw [form] at read size ⊢
  -- the header is read in parts, and all that follows it is less than the window
  refine Piecewise.Within.bind ((Streamed.Sized.readHeader le_rfl).within (by decide) _) fun a rest (got : Streamed.fromList Streamed.readHeader _ = .ok (a,rest)) => ?_
  obtain ⟨rfl,rfl⟩ := Prod.mk.inj (Except.ok.inj (got.symm.trans (header _)))
  rw [Streamed.readBlock,Streamed.fromList_bind,header.bind_eq] at read
  refine Piecewise.within_taken read ?_
  have most : MAX_BLOCK_SIZE = 1000000 := rfl
  rw [List.length_append] at size
  rw [List.length_nil]
  omega

/-! ### The reader -/

namespace CBufferedFile

variable {bytes : List UInt8} {counts : Nat → Nat} {start : Nat} {s s' : CBufferedFile}

/-- What is read next, up to the limit. -/
def left (s : CBufferedFile) : List UInt8 := (s.src.bytes.take s.nReadLimit).drop s.nReadPos

/-- The reader of the loader. -/
structure Loads (bytes : List UInt8) (counts : Nat → Nat) (start : Nat) (s : CBufferedFile) : Prop where
  sound : s.Sound bytes counts start
  size : s.size = 2*MAX_BLOCK_SIZE
  nRewind : s.nRewind = MAX_BLOCK_SIZE+8

theorem Loads.onward (loads : s.Loads bytes counts start) (onward : Onward bytes counts start s s') : s'.Loads bytes counts start :=
  ⟨onward.sound,onward.size.trans loads.size,onward.nRewind.trans loads.nRewind⟩

theorem Loads.left_length (loads : s.Loads bytes counts start) : s.left.length = min s.nReadLimit bytes.length-s.nReadPos := by
  rw [left,loads.sound.source.1,List.length_drop,List.length_take]

theorem Loads.left_all (loads : s.Loads bytes counts start) (far : bytes.length ≤ s.nReadLimit) : s.left = bytes.drop s.nReadPos := by
  rw [left,loads.sound.source.1,List.take_of_length_le far]

/-- The reader shows the bytes up to its limit. -/
theorem shows (reads : ∀ i, counts i ≠ 0) :
    Piecewise.Shows CBufferedFile.read StreamError.failure MAX_SIZE (MAX_BLOCK_SIZE-8) (fun s => s.Loads bytes counts start ∧ s.nReadPos ≤ s.nReadLimit) left
      (fun s s' => Onward bytes counts start s s' ∧ s'.failbit = s.failbit) fun e s s' => (∃ what, e = .failure what) ∧ Onward bytes counts start s s' where
  refl s inv := ⟨.refl inv.1.sound,rfl⟩
  trans s s' s'' first second := ⟨first.1.trans second.1,second.2.trans first.2⟩
  stay e s inv := ⟨⟨e,rfl⟩,.refl inv.1.sound⟩
  last e s s' s'' first second := ⟨second.1,first.1.trans second.2⟩
  hands s n inv few := by
    obtain ⟨loads,inside⟩ := inv
    have long := loads.left_length
    have size := loads.size
    have nRewind := loads.nRewind
    have small : n < 2^63 := few.trans_lt (by decide)
    have filled := loads.sound.inside
    have read := loads.sound.read
    rcases read_sound loads.sound small with ⟨s',done,goes,moved,good,limited,fits⟩ | ⟨s',what,failed,goes,why⟩
    · left
      have filled' := goes.sound.inside
      have behind := goes.sound.read.2
      refine ⟨s',?_,by omega,⟨loads.onward goes,by rw [moved,goes.nReadLimit]; exact limited⟩,?_,goes,good⟩
      · rw [done,CBufferedFile.left,loads.sound.source.1,List.drop_take,List.take_take,Nat.min_eq_left (by omega)]
      · rw [CBufferedFile.left,CBufferedFile.left,loads.sound.source.1,goes.sound.source.1,goes.nReadLimit,moved,List.drop_drop]
    · right
      refine ⟨s',_,failed,?_,⟨what,rfl⟩,goes⟩
      rcases why with ⟨-,limited | large⟩ | ⟨less,-,ended | ⟨i,none⟩⟩
      · exact .inr (by omega)
      · have room : 8 ≤ MAX_BLOCK_SIZE := by decide
        exact .inl (by omega)
      · have forward := goes.forward
        exact .inr (by omega)
      · exact absurd none (reads i)

variable {α : Type} {reading : Streamed α}

theorem extract_list (reads : ∀ i, counts i ≠ 0) (sized : Streamed.Sized MAX_SIZE reading) (loads : s.Loads bytes counts start) (inside : s.nReadPos ≤ s.nReadLimit) :
    (∃ s' a, s.extract reading = (s',.ok a) ∧ Streamed.fromList reading s.left = .ok (a,s'.left) ∧ Onward bytes counts start s s' ∧
      s'.failbit = s.failbit) ∨
      ∃ s' what, s.extract reading = (s',.error (.failure what)) ∧ Onward bytes counts start s s' := by
  rcases (shows reads).run_list "CDataStream::read() : end of data" sized ⟨loads,inside⟩ with ⟨s',a,ran,same,-,goes,good⟩ | ⟨s',_,ran,⟨what,rfl⟩,goes⟩
  · exact .inl ⟨s',a,ran,same,goes,good⟩
  · exact .inr ⟨s',what,ran,goes⟩

theorem extract_of_list (reads : ∀ i, counts i ≠ 0) (sized : Streamed.Sized MAX_SIZE reading) (loads : s.Loads bytes counts start) (inside : s.nReadPos ≤ s.nReadLimit)
    {a : α} {rest : List UInt8} (got : Streamed.fromList reading s.left = .ok (a,rest)) (within : reading.Within (MAX_BLOCK_SIZE-8) s.left) :
    ∃ s', s.extract reading = (s',.ok a) :=
  (shows reads).run_of_list sized ⟨loads,inside⟩ got within

end CBufferedFile

/-! ### Turns -/

namespace LoadState

variable {σ : Type} {bytes : List UInt8} {counts : Nat → Nat} {start : Nat} {s s' : LoadState σ}

/-- The loader before a turn. -/
structure Head (bytes : List UInt8) (counts : Nat → Nat) (start : Nat) (s : LoadState σ) : Prop where
  loads : s.blkdat.Loads bytes counts start
  rewind : start ≤ s.nRewind ∧ s.nRewind ≤ s.blkdat.nSrcPos

/-- The reader can go back to where the loader goes on. -/
def Near (s : LoadState σ) : Prop := s.blkdat.nSrcPos ≤ s.nRewind+(MAX_BLOCK_SIZE+8)

/-- The first byte that may start a record was found, and a record's start read there. -/
structure Located (bytes : List UInt8) (counts : Nat → Nat) (start : Nat) (s s' : LoadState σ) (p : Nat) (found : Option Nat) : Prop where
  nRewind : s'.nRewind = p+1
  processed : s'.processed = s.processed
  loads : s'.blkdat.Loads bytes counts start
  forward : s.nRewind ≤ p
  first : s.Near → ∀ r block, s.nRewind ≤ r → RecordAt bytes r block → p ≤ r
  read : Streamed.fromList readStart (bytes.drop p) = .ok (found,bytes.drop s'.blkdat.nReadPos)
  position : p < s'.blkdat.nReadPos ∧ s'.blkdat.nReadPos ≤ p+8
  whole : ∀ nSize, found = some nSize → nSize ≤ MAX_BLOCK_SIZE ∧ s'.blkdat.nReadPos = p+8
  failbit : s'.blkdat.failbit = s.blkdat.failbit
  ahead : s'.blkdat.nSrcPos ≤ max s.blkdat.nSrcPos (p+MAX_BLOCK_SIZE)

theorem locate_sound (reads : ∀ i, counts i ≠ 0) (head : Head bytes counts start s) :
    (∃ s' what, s.locate = (s',.error (.failure what)) ∧ s'.processed = s.processed ∧
      (s.Near → ∀ r block, s.nRewind ≤ r → ¬RecordAt bytes r block)) ∨
      ∃ s' p found, s.locate = (s',.ok found) ∧ Located bytes counts start s s' p found := by
  obtain ⟨q,moved,low,near,sound⟩ := s.blkdat.SetPos_back head.loads.sound head.rewind.1 head.rewind.2
  have short := sound.short
  have filled := sound.inside
  have behind : q ≤ s.blkdat.nSrcPos := sound.read.2
  have unlimited : ({s.blkdat with nReadPos := q} : CBufferedFile).SetLimit.1 = {s.blkdat with nReadPos := q,nReadLimit := 2^64-1} := by
    rw [CBufferedFile.SetLimit,if_neg]
    change ¬2^64-1 < q
    change s.blkdat.nSrcPos ≤ _ at filled
    omega
  have close : s.Near → q = s.nRewind := fun close => near (by rw [head.loads.nRewind]; exact close)
  rw [locate,moved,unlimited]
  have loads : ({s.blkdat with nReadPos := q,nReadLimit := 2^64-1} : CBufferedFile).Loads bytes counts start :=
    ⟨sound.limited _,head.loads.size,head.loads.nRewind⟩
  rcases CBufferedFile.FindByte_sound loads.sound (pchMessageStart.headD 0) with ⟨found,search,goes,there,others,good⟩ | ⟨found,what,search,goes,-,others,ends⟩
  · rw [search]
    dsimp only
    have inside := List.getElem?_eq_some_iff.mp there |>.1
    have first : s.Near → ∀ r block, s.nRewind ≤ r → RecordAt bytes r block → found.nReadPos ≤ r := by
      intro isNear r block after record
      by_contra earlier
      exact others r (close isNear ▸ after) (Nat.lt_of_not_le earlier) record.first
    have far : bytes.length ≤ found.nReadLimit := by rw [goes.nReadLimit]; change _ ≤ 2^64-1; omega
    have shown := (loads.onward goes).left_all far
    have count : (found.GetPos+1)%2^64 = found.nReadPos+1 := Nat.mod_eq_of_lt (show found.nReadPos+1 < 2^64 by omega)
    rw [count]
    rcases CBufferedFile.extract_list reads (readStart_sized (by decide)) (loads.onward goes) (by omega) with
      ⟨after,nSize,ran,read,further,good'⟩ | ⟨after,what,ran,further⟩
    · rw [ran]
      have far' : bytes.length ≤ after.nReadLimit := by rw [further.nReadLimit]; exact far
      rw [shown,((loads.onward goes).onward further).left_all far'] at read
      obtain ⟨least,most,whole⟩ := readStart_rest read
      rw [List.length_drop,List.length_drop] at least most whole
      have filled' := further.sound.inside
      have behind' := further.sound.read.2
      have low' := goes.sound.read.1
      have ahead := goes.ahead
      have ahead' := further.ahead
      have forward := goes.forward
      have size := (loads.onward goes).size
      have nRewind := (loads.onward goes).nRewind
      have most' : MAX_BLOCK_SIZE = 1000000 := rfl
      dsimp only at forward ahead
      refine .inr ⟨_,found.nReadPos,nSize,rfl,⟨rfl,rfl,(loads.onward goes).onward further,by omega,first,read,by dsimp only; omega,?_,good'.trans good,?_⟩⟩
      · intro n some
        have eight := whole n some
        exact ⟨eight.1,by dsimp only; omega⟩
      · rw [size,nRewind] at ahead'
        rw [head.loads.size,head.loads.nRewind] at ahead
        dsimp only
        omega
    · rw [ran]
      refine .inl ⟨_,what,rfl,rfl,fun isNear r block later record => ?_⟩
      have long := record.long
      have at' := first isNear r block later record
      obtain ⟨_,_,read⟩ := @readStart_reads (bytes.drop found.nReadPos) (by rw [List.length_drop]; omega)
      rw [← shown] at read
      obtain ⟨_,ok⟩ := CBufferedFile.extract_of_list reads (readStart_sized (by decide)) (loads.onward goes) (by omega) read
        ((readStart_sized le_rfl).within (by decide) _)
      exact absurd (Prod.mk.inj (ran.symm.trans ok)).2 (by simp)
  · rw [search]
    refine .inl ⟨_,what,rfl,rfl,fun isNear r block after record => ?_⟩
    have long := record.long
    rcases ends with ended | ⟨i,none⟩
    · exact others r (close isNear ▸ after) (by omega) record.first
    · exact reads i none

variable {rules : BlockRules σ} {dbp : Option CDiskBlockPos}

/-- The block of a record is read, or nothing that fits in the window. -/
theorem readRecord_sound (reads : ∀ i, counts i ≠ 0) (loads : s.blkdat.Loads bytes counts start) {nSize : Nat} (few : nSize ≤ MAX_BLOCK_SIZE) :
    (∃ blkdat, readRecord rules start dbp s nSize = ({s with blkdat := blkdat},.undecoded) ∧ blkdat.Loads bytes counts start ∧
      s.blkdat.nReadPos ≤ blkdat.nSrcPos ∧ ∀ block, RecordAt bytes (s.blkdat.nReadPos-8) block → 8 ≤ s.blkdat.nReadPos → block.Serialize.length ≠ nSize) ∨
      ∃ blkdat block, readRecord rules start dbp s nSize =
          process rules start dbp {s with blkdat := blkdat,nRewind := blkdat.nReadPos} s.blkdat.nReadPos block ∧
        blkdat.Loads bytes counts start ∧ s.blkdat.nReadPos ≤ blkdat.nReadPos ∧ blkdat.failbit = s.blkdat.failbit ∧
        blkdat.nSrcPos ≤ max s.blkdat.nSrcPos (blkdat.nReadPos+MAX_BLOCK_SIZE) ∧
        CBlock.Unserialize (KeyBuffer.headed 0xFF) ((bytes.drop s.blkdat.nReadPos).take nSize) =
          .ok (block,(bytes.take (s.blkdat.nReadPos+nSize)).drop blkdat.nReadPos) := by
  have short := loads.sound.short
  have filled := loads.sound.inside
  have behind := loads.sound.read.2
  have most : MAX_BLOCK_SIZE = 1000000 := rfl
  have limited : (s.blkdat.SetLimit ((s.blkdat.GetPos+nSize)%2^64)).1 = {s.blkdat with nReadLimit := s.blkdat.nReadPos+nSize} := by
    have sum : (s.blkdat.GetPos+nSize)%2^64 = s.blkdat.nReadPos+nSize := Nat.mod_eq_of_lt (show s.blkdat.nReadPos+nSize < 2^64 by omega)
    rw [sum,CBufferedFile.SetLimit,if_neg (by omega)]
  have loads' : ({s.blkdat with nReadLimit := s.blkdat.nReadPos+nSize} : CBufferedFile).Loads bytes counts start :=
    ⟨loads.sound.limited _,loads.size,loads.nRewind⟩
  have shown : ({s.blkdat with nReadLimit := s.blkdat.nReadPos+nSize} : CBufferedFile).left = (bytes.drop s.blkdat.nReadPos).take nSize := by
    rw [CBufferedFile.left,loads'.sound.source.1,List.drop_take,Nat.add_sub_cancel_left]
  have sized := Streamed.Sized.readBlock (KeyBuffer.headed 0xFF)
  rw [readRecord,limited]
  rcases CBufferedFile.extract_list reads sized loads' (Nat.le_add_right ..) with ⟨after,block,ran,read,goes,good⟩ | ⟨after,what,ran,goes⟩
  · rw [ran]
    have rest : after.left = (bytes.take (s.blkdat.nReadPos+nSize)).drop after.nReadPos := by
      rw [CBufferedFile.left,goes.sound.source.1,goes.nReadLimit]
    rw [Streamed.fromList_readBlock,shown,rest] at read
    have ahead := goes.ahead
    dsimp only at ahead
    rw [loads.size,loads.nRewind] at ahead
    exact .inr ⟨after,block,rfl,loads'.onward goes,goes.forward,good,by omega,read⟩
  · rw [ran]
    refine .inl ⟨after,rfl,loads'.onward goes,goes.forward.trans goes.sound.read.2,fun block record far same => ?_⟩
    obtain ⟨decodes,within⟩ := record.decodes
    have body := record.body
    rw [Nat.sub_add_cancel far,same] at body
    rw [← body,← shown] at decodes within
    obtain ⟨_,ok⟩ := CBufferedFile.extract_of_list reads sized loads' (Nat.le_add_right ..) decodes within
    exact absurd (Prod.mk.inj (ran.symm.trans ok)).2 (by simp)

end LoadState

/-- A block that was processed is what the file holds at its position. -/
structure Processed.Parsed (bytes : List UInt8) (dbp : Option CDiskBlockPos) (processed : Processed) : Prop where
  there : 8 ≤ processed.nBlockPos ∧ processed.nBlockPos ≤ processed.nEnd
  decoded : ∃ nSize, Streamed.fromList readStart (bytes.drop (processed.nBlockPos-8)) = .ok (some nSize,bytes.drop processed.nBlockPos) ∧
    CBlock.Unserialize (KeyBuffer.headed 0xFF) ((bytes.drop processed.nBlockPos).take nSize) =
      .ok (processed.block,(bytes.take (processed.nBlockPos+nSize)).drop processed.nEnd)
  dbp : processed.dbp = dbp.map fun dbp => {dbp with nPos := processed.nBlockPos%2^32}

/-- What is read where a record is, is the record. -/
theorem Processed.Parsed.record {bytes : List UInt8} {dbp : Option CDiskBlockPos} {processed : Processed} (parsed : processed.Parsed bytes dbp)
    {r : Nat} (at' : processed.nBlockPos = r+8) {block : CBlock} (record : RecordAt bytes r block) : processed.block = block.loaded := by
  obtain ⟨nSize,started,decoded⟩ := parsed.decoded
  obtain ⟨_,same⟩ := record.start
  rw [at',Nat.add_sub_cancel] at started
  obtain rfl := Option.some.inj (Prod.mk.inj (Except.ok.inj (started.symm.trans same))).1
  rw [at',record.body,← Streamed.fromList_readBlock,record.decodes.1] at decoded
  exact (Prod.mk.inj (Except.ok.inj decoded)).1.symm

namespace LoadState

variable {σ : Type} {rules : BlockRules σ} {bytes : List UInt8} {counts : Nat → Nat} {start : Nat} {dbp : Option CDiskBlockPos} {s s' : LoadState σ}

/-- A turn that goes on in the file, and where it does from. -/
structure Passed (bytes : List UInt8) (counts : Nat → Nat) (start : Nat) (s s' : LoadState σ) (p : Nat) : Prop where
  head : Head bytes counts start s'
  forward : s.nRewind ≤ p ∧ p < s'.nRewind
  first : s.Near → ∀ r block, s.nRewind ≤ r → RecordAt bytes r block → p ≤ r

/-- The reader can go on, or there are too few bytes left for a record. -/
structure Ready (bytes : List UInt8) (s : LoadState σ) : Prop where
  good : s.blkdat.failbit = false
  near : s.Near
  eof : s.blkdat.eof = true → bytes.length < s.nRewind+88

theorem eof_length {blkdat : CBufferedFile} (sound : blkdat.Sound bytes counts start) (eof : blkdat.eof = true) : bytes.length ≤ blkdat.nReadPos := by
  rw [CBufferedFile.eof,Bool.and_eq_true,beq_iff_eq] at eof
  exact eof.1 ▸ sound.feof eof.2

theorem process_late {nBlockPos : Nat} (late : nBlockPos ≥ start) (block : CBlock) :
    ∃ s' h, process rules start dbp s nBlockPos block = (s',if h.isError then .stopped else .processed) ∧ s'.blkdat = s.blkdat ∧
      s'.nRewind = s.nRewind ∧ s'.processed = s.processed ++ [h] ∧
      h = ⟨nBlockPos,s.blkdat.nReadPos,block,dbp.map fun dbp => {dbp with nPos := nBlockPos%2^32},h.isError⟩ := by
  rw [process,if_pos late]
  exact ⟨_,⟨_,_,_,_,_⟩,rfl,rfl,rfl,rfl,rfl⟩

/-- What a turn does. -/
theorem turn_cases (reads : ∀ i, counts i ≠ 0) (head : Head bytes counts start s) :
    (∃ s', turn rules start dbp s = (s',.stopped) ∧ s'.processed = s.processed ∧ (s.Near → ∀ r block, s.nRewind ≤ r → ¬RecordAt bytes r block)) ∨
    (∃ s' p, turn rules start dbp s = (s',.nextByte) ∧ s'.processed = s.processed ∧ Passed bytes counts start s s' p ∧ s'.nRewind = p+1 ∧
      (∀ block, ¬RecordAt bytes p block) ∧ (Ready bytes s → Ready bytes s')) ∨
    (∃ s' p, turn rules start dbp s = (s',.undecoded) ∧ s'.processed = s.processed ∧ Passed bytes counts start s s' p ∧ s'.nRewind = p+1 ∧
      ∀ block, ¬RecordAt bytes p block) ∨
    ∃ s' p h, turn rules start dbp s = (s',if h.isError then .stopped else .processed) ∧ s'.processed = s.processed ++ [h] ∧
      Passed bytes counts start s s' p ∧ h.nBlockPos = p+8 ∧ s'.nRewind = h.nEnd ∧ h.Parsed bytes dbp ∧ (Ready bytes s → Ready bytes s') := by
  rw [turn]
  rcases locate_sound reads head with ⟨t,what,located,same,none⟩ | ⟨t,p,found,located,at'⟩
  · rw [located]
    exact .inl ⟨t,rfl,same,none⟩
  rw [located]
  have nRewind := at'.nRewind
  have behind := at'.loads.sound.read.2
  have position := at'.position
  have rewind := head.rewind
  have forward := at'.forward
  have ahead := at'.ahead
  have passed : Passed bytes counts start s t p := ⟨⟨at'.loads,by omega,by omega⟩,⟨forward,by omega⟩,at'.first⟩
  right
  cases found with
  | none =>
    refine .inl ⟨t,p,rfl,at'.processed,passed,nRewind,fun block record => ?_,fun ready => ⟨at'.failbit.trans ready.good,?_,fun eof => ?_⟩⟩
    · obtain ⟨_,start'⟩ := record.start
      exact absurd (Prod.mk.inj (Except.ok.inj (at'.read.symm.trans start'))).1 (by simp)
    · have near := ready.near
      rw [Near] at near ⊢
      omega
    · have ended := eof_length at'.loads.sound eof
      omega
  | some nSize =>
    right
    dsimp only
    obtain ⟨few,eight⟩ := at'.whole nSize rfl
    rcases @readRecord_sound _ _ _ _ t rules dbp reads at'.loads nSize few with ⟨blkdat,ran,loads,filled,bad⟩ | ⟨blkdat,block,ran,loads,further,good,ahead',decoded⟩
    · refine .inl ⟨_,p,ran,at'.processed,⟨⟨loads,?_,?_⟩,⟨forward,?_⟩,at'.first⟩,nRewind,fun block record => ?_⟩
      · change start ≤ t.nRewind
        omega
      · change t.nRewind ≤ blkdat.nSrcPos
        omega
      · change p < t.nRewind
        omega
      · obtain ⟨_,start'⟩ := record.start
        have size := Option.some.inj (Prod.mk.inj (Except.ok.inj (at'.read.symm.trans start'))).1
        rw [eight,Nat.add_sub_cancel] at bad
        exact bad block record (by omega) size.symm
    · have late : t.blkdat.nReadPos ≥ start := by omega
      obtain ⟨s',h,done,same,rewound,added,is⟩ := @process_late _ rules start dbp {t with blkdat := blkdat,nRewind := blkdat.nReadPos} _ late block
      have at'' : h.nBlockPos = p+8 := (congrArg Processed.nBlockPos is).trans eight
      have ends : h.nEnd = blkdat.nReadPos := congrArg Processed.nEnd is
      have behind' := loads.sound.read
      dsimp only at same rewound added
      rw [ran,done]
      refine .inr ⟨s',p,h,rfl,at'.processed ▸ added,⟨⟨same ▸ loads,?_⟩,?_,at'.first⟩,at'',rewound.trans ends.symm,⟨?_,⟨nSize,?_⟩,?_⟩,fun ready => ⟨?_,?_,?_⟩⟩
      · rw [rewound,same]
        exact behind'
      · rw [rewound]
        omega
      · omega
      · rw [at'',Nat.add_sub_cancel,ends,(congrArg Processed.block is : h.block = block),← eight]
        exact ⟨at'.read,decoded⟩
      · rw [at'',← eight]
        exact congrArg Processed.dbp is
      · rw [same]
        exact good.trans (at'.failbit.trans ready.good)
      · have near := ready.near
        rw [Near] at near ⊢
        rw [same,rewound]
        omega
      · rw [same,rewound]
        intro eof
        have ended := eof_length loads.sound eof
        omega

/-! ### Runs -/

/-- The states in which turns begin. -/
inductive Heads (rules : BlockRules σ) (start : Nat) (dbp : Option CDiskBlockPos) (first : LoadState σ) : LoadState σ → Prop
  | first : Heads rules start dbp first first
  | turn {s s' : LoadState σ} {turned : LoadTurn} (heads : Heads rules start dbp first s) (goes : s.goesOn = true)
      (ran : turn rules start dbp s = (s',turned)) (further : turned ≠ .stopped) : Heads rules start dbp first s'

/-- The loop goes on, from where it wants to. -/
def Resumes (s : LoadState σ) : Prop := s.goesOn = true ∧ (s.blkdat.SetPos s.nRewind).2 = true

/-- So it is after every block that could not be read. -/
def Resumable (rules : BlockRules σ) (start : Nat) (dbp : Option CDiskBlockPos) (first : LoadState σ) : Prop :=
  ∀ s s', Heads rules start dbp first s → s.goesOn = true → turn rules start dbp s = (s',.undecoded) → s'.Resumes

/-- A record was processed, or began in one that was. -/
def Accounts (s : LoadState σ) (r : Nat) (block : CBlock) : Prop :=
  (∃ h ∈ s.processed, h.nBlockPos = r+8 ∧ h.block = block.loaded) ∨ ∃ h ∈ s.processed, h.nBlockPos < r+8 ∧ r < h.nEnd

/-- The blocks that were processed, in the order of the file. -/
structure Ordered (bytes : List UInt8) (dbp : Option CDiskBlockPos) (s : LoadState σ) : Prop where
  sorted : s.processed.Pairwise fun a b => a.nEnd+8 ≤ b.nBlockPos
  parsed : ∀ h ∈ s.processed, h.Parsed bytes dbp

structure Inv (rules : BlockRules σ) (bytes : List UInt8) (counts : Nat → Nat) (start : Nat) (dbp : Option CDiskBlockPos) (first s : LoadState σ) :
    Prop where
  head : Head bytes counts start s
  ordered : s.Ordered bytes dbp
  before : ∀ h ∈ s.processed, h.nEnd ≤ s.nRewind
  seen : Resumable rules start dbp first → Ready bytes s ∧ ∀ r block, start ≤ r → r < s.nRewind → RecordAt bytes r block → s.Accounts r block

/-- What the loop returns. -/
structure Done (rules : BlockRules σ) (bytes : List UInt8) (start : Nat) (dbp : Option CDiskBlockPos) (first s : LoadState σ) : Prop where
  ordered : s.Ordered bytes dbp
  complete : Resumable rules start dbp first → ∀ r block, start ≤ r → RecordAt bytes r block →
    s.Accounts r block ∨ ∃ h ∈ s.processed, h.isError = true ∧ h.nEnd ≤ r

variable {first : LoadState σ}

theorem Accounts.mono {r : Nat} {block : CBlock} (accounts : s.Accounts r block) (more : ∀ h ∈ s.processed, h ∈ s'.processed) : s'.Accounts r block := by
  rcases accounts with ⟨h,member,is⟩ | ⟨h,member,inside⟩
  · exact .inl ⟨h,more h member,is⟩
  · exact .inr ⟨h,more h member,inside⟩

/-- Nothing was processed where no record is. -/
theorem Inv.skip (inv : Inv rules bytes counts start dbp first s) {p : Nat} (same : s'.processed = s.processed) (passed : Passed bytes counts start s s' p)
    (next : s'.nRewind = p+1) (none : ∀ block, ¬RecordAt bytes p block) (ready : Resumable rules start dbp first → Ready bytes s') :
    Inv rules bytes counts start dbp first s' := by
  refine ⟨passed.head,⟨same ▸ inv.ordered.sorted,same ▸ inv.ordered.parsed⟩,?_,fun resumable => ⟨ready resumable,?_⟩⟩
  · rw [same]
    intro h member
    have old := inv.before h member
    have forward := passed.forward
    omega
  · intro r block after below record
    obtain ⟨old,seen⟩ := inv.seen resumable
    by_cases already : r < s.nRewind
    · exact (seen r block after already record).mono fun h member => same ▸ member
    · have at' := passed.first old.near r block (by omega) record
      have here : r = p := by omega
      exact absurd (here ▸ record) (none block)

theorem Inv.add (inv : Inv rules bytes counts start dbp first s) {p : Nat} {h : Processed} (added : s'.processed = s.processed ++ [h])
    (passed : Passed bytes counts start s s' p) (at' : h.nBlockPos = p+8) (next : s'.nRewind = h.nEnd) (parsed : h.Parsed bytes dbp)
    (ready : Ready bytes s → Ready bytes s') : Inv rules bytes counts start dbp first s' := by
  have forward := passed.forward
  have member (g : Processed) : g ∈ s'.processed ↔ g ∈ s.processed ∨ g = h := by rw [added,List.mem_append,List.mem_singleton]
  refine ⟨passed.head,⟨?_,?_⟩,?_,fun resumable => ⟨ready (inv.seen resumable).1,?_⟩⟩
  · rw [added,List.pairwise_append]
    refine ⟨inv.ordered.sorted,List.pairwise_singleton ..,fun a old b new => ?_⟩
    obtain rfl := List.mem_singleton.mp new
    have before := inv.before a old
    omega
  · intro g among
    rcases (member g).mp among with old | rfl
    · exact inv.ordered.parsed g old
    · exact parsed
  · intro g among
    rcases (member g).mp among with old | rfl
    · have before := inv.before g old
      omega
    · exact next.ge
  · intro r block after below record
    obtain ⟨old,seen⟩ := inv.seen resumable
    by_cases already : r < s.nRewind
    · exact (seen r block after already record).mono fun g old => (member g).mpr (.inl old)
    have low := passed.first old.near r block (by omega) record
    by_cases here : h.nBlockPos = r+8
    · exact .inl ⟨h,(member h).mpr (.inr rfl),here,parsed.record here record⟩
    · exact .inr ⟨h,(member h).mpr (.inr rfl),by omega,by omega⟩

/-- Where no record is left, all are accounted for. -/
theorem Inv.done (inv : Inv rules bytes counts start dbp first s) (same : s'.processed = s.processed)
    (none : Ready bytes s → ∀ r block, s.nRewind ≤ r → ¬RecordAt bytes r block) : Done rules bytes start dbp first s' := by
  refine ⟨⟨same ▸ inv.ordered.sorted,same ▸ inv.ordered.parsed⟩,fun resumable r block after record => .inl ?_⟩
  obtain ⟨ready,seen⟩ := inv.seen resumable
  by_cases already : r < s.nRewind
  · exact (seen r block after already record).mono fun h member => same ▸ member
  · exact absurd record (none ready r block (by omega))

theorem Resumes.ready (head : Head bytes counts start s) (resumes : s.Resumes) : Ready bytes s := by
  obtain ⟨goes,back⟩ := resumes
  rw [goesOn,Bool.and_eq_true,CBufferedFile.good,Bool.not_eq_true',Bool.not_eq_true'] at goes
  refine ⟨goes.1,?_,fun eof => absurd (goes.2.symm.trans eof) (by decide)⟩
  rw [Near,← head.loads.nRewind]
  exact (CBufferedFile.SetPos_near head.loads.sound head.rewind.2).1.mp back

/-- A turn ends the loop where all is done, or goes on in the file. -/
theorem Inv.turn (reads : ∀ i, counts i ≠ 0) (inv : Inv rules bytes counts start dbp first s) (heads : Heads rules start dbp first s)
    (goes : s.goesOn = true) :
    (∃ s', turn rules start dbp s = (s',.stopped) ∧ Done rules bytes start dbp first s') ∨
      ∃ s' turned, turn rules start dbp s = (s',turned) ∧ turned ≠ .stopped ∧ turned ≠ .endless ∧ Inv rules bytes counts start dbp first s' ∧
        s.nRewind < s'.nRewind := by
  rcases @turn_cases _ rules bytes counts start dbp s reads inv.head with ⟨s',ran,same,none⟩ | ⟨s',p,ran,same,passed,next,none,ready⟩ |
    ⟨s',p,ran,same,passed,next,none⟩ | ⟨s',p,h,ran,added,passed,at',next,parsed,ready⟩
  · exact .inl ⟨s',ran,inv.done same fun ready => none ready.near⟩
  · have forward := passed.forward
    exact .inr ⟨s',_,ran,by simp,by simp,inv.skip same passed next none fun resumable => ready (inv.seen resumable).1,by omega⟩
  · have forward := passed.forward
    exact .inr ⟨s',_,ran,by simp,by simp,
      inv.skip same passed next none fun resumable => (resumable s s' heads goes ran).ready passed.head,by omega⟩
  · have forward := passed.forward
    have after := inv.add added passed at' next parsed ready
    cases error : h.isError with
    | false =>
      rw [error] at ran
      exact .inr ⟨s',_,ran,by simp,by simp,after,by omega⟩
    | true =>
      rw [error] at ran
      refine .inl ⟨s',ran,after.ordered,fun resumable r block later record => ?_⟩
      by_cases already : r < s'.nRewind
      · exact .inl ((after.seen resumable).2 r block later already record)
      · exact .inr ⟨h,by rw [added]; simp,error,by omega⟩

theorem load_done (reads : ∀ i, counts i ≠ 0) (fuel : Nat) (inv : Inv rules bytes counts start dbp first s) (heads : Heads rules start dbp first s)
    (enough : max start bytes.length < s.nRewind+fuel) :
    ∃ final, load rules start dbp fuel s = some final ∧ Done rules bytes start dbp first final := by
  induction fuel generalizing s with
  | zero =>
    have filled := inv.head.loads.sound.inside
    have rewind := inv.head.rewind
    omega
  | succ fuel ih =>
    rw [load]
    by_cases goes : s.goesOn = true
    · rw [if_pos goes]
      rcases inv.turn reads heads goes with ⟨s',ran,done⟩ | ⟨s',turned,ran,further,ends,after,forward⟩
      · rw [ran]
        exact ⟨s',rfl,done⟩
      · have rest := ih after (.turn heads goes ran further) (by omega)
        rw [ran]
        cases turned with
        | stopped => contradiction
        | endless => contradiction
        | nextByte => exact rest
        | undecoded => exact rest
        | processed => exact rest
    · rw [if_neg goes]
      refine ⟨s,rfl,inv.done rfl fun ready r block after record => ?_⟩
      have long := record.long
      rw [goesOn,CBufferedFile.good,ready.good] at goes
      have last := ready.eof (by simpa using goes)
      omega

/-- The loader before its loop: nothing was processed, and nothing of the file is behind. -/
theorem opened_inv (rules : BlockRules σ) {bytes : List UInt8} (short : bytes.length < 2^63) (counts : Nat → Nat) (node : σ) (dbp : Option CDiskBlockPos) :
    Inv rules bytes counts (opened rules bytes counts node dbp).2 dbp (opened rules bytes counts node dbp).1 (opened rules bytes counts node dbp).1 := by
  have new := CBufferedFile.new_sound short counts (show MAX_BLOCK_SIZE+8 < 2*MAX_BLOCK_SIZE by decide) (by decide)
  have starts (blkdat : CBufferedFile) (start : Nat) (loads : blkdat.Loads bytes counts start) (here : blkdat.nReadPos = start ∧ blkdat.nSrcPos = start)
      (clear : blkdat.failbit = false ∧ blkdat.src.feof = false) :
      Inv rules bytes counts start dbp ⟨blkdat,blkdat.GetPos,node,0,[]⟩ (⟨blkdat,blkdat.GetPos,node,0,[]⟩ : LoadState σ) := by
    have pos : blkdat.GetPos = blkdat.nReadPos := rfl
    rw [pos]
    refine ⟨⟨loads,here.1.ge,(here.1.trans here.2.symm).le⟩,⟨.nil,fun h none => ?_⟩,fun h none => ?_,fun _ => ⟨⟨clear.1,?_,?_⟩,fun r block after below => ?_⟩⟩
    · exact absurd none List.not_mem_nil
    · exact absurd none List.not_mem_nil
    · change blkdat.nSrcPos ≤ blkdat.nReadPos+_
      omega
    · intro eof
      change blkdat.eof = true at eof
      rw [CBufferedFile.eof,clear.2,Bool.and_false] at eof
      contradiction
    · dsimp only at below
      omega
  rw [opened]
  cases indexed rules node dbp with
  | none => exact starts _ 0 ⟨new,rfl,rfl⟩ ⟨rfl,rfl⟩ ⟨rfl,rfl⟩
  | some info =>
    have fits : info.nSize < 2^63 := info.fits.trans (by decide)
    have sought := CBufferedFile.Seek_sound new fits
    rw [CBufferedFile.Seek,if_neg (by omega)] at sought
    dsimp only
    rw [CBufferedFile.Seek,if_neg (by omega)]
    exact starts _ info.nSize ⟨sought,rfl,rfl⟩ ⟨rfl,rfl⟩ ⟨rfl,rfl⟩

end LoadState

open LoadState

/-- The loader returns. It processes blocks that the file holds, at their positions and in
    their order; and where it can go back after each block that cannot be read, it processes
    every record that does not begin in one it processed, up to an error of the node. -/
theorem LoadExternalBlockFile_finds {σ : Type} (rules : BlockRules σ) {bytes : List UInt8} {counts : Nat → Nat} (short : bytes.length < 2^63)
    (reads : ∀ i, counts i ≠ 0) (node : σ) {dbp : Option CDiskBlockPos} (narrow : dbp = none ∨ bytes.length < 2^32) :
    ∃ final loaded, LoadExternalBlockFile rules bytes counts node dbp = some (final,loaded) ∧ final.Ordered bytes dbp ∧
      (Resumable rules (opened rules bytes counts node dbp).2 dbp (opened rules bytes counts node dbp).1 →
        ∀ r block, (opened rules bytes counts node dbp).2 ≤ r → RecordAt bytes r block →
          (∃ h ∈ final.processed, h.nBlockPos = r+8 ∧ h.block = block.loaded ∧ h.dbp = dbp.map fun dbp => {dbp with nPos := r+8}) ∨
            (∃ h ∈ final.processed, h.nBlockPos < r+8 ∧ r < h.nEnd) ∨ ∃ h ∈ final.processed, h.isError = true ∧ h.nEnd ≤ r) := by
  have inv := opened_inv rules short counts node dbp
  have rewind := inv.head.rewind
  obtain ⟨final,ran,done⟩ := load_done reads (bytes.length+2) inv .first (by omega)
  refine ⟨final,_,by rw [LoadExternalBlockFile]; dsimp only; rw [ran]; rfl,done.ordered,fun resumable r block after record => ?_⟩
  rcases done.complete resumable r block after record with (⟨h,member,at',is⟩ | inside) | error
  · refine .inl ⟨h,member,at',is,?_⟩
    rw [(done.ordered.parsed h member).dbp,at']
    rcases narrow with rfl | few
    · rfl
    · have long := record.long
      rw [Nat.mod_eq_of_lt (by omega)]
  · exact .inr (.inl inside)
  · exact .inr (.inr error)

private def accepting : BlockRules Unit := ⟨fun _ _ => none,fun _ _ _ => ((),.ok (true,false))⟩
private def recordOf (block : CBlock) : List UInt8 := pchMessageStart ++ leBytes 4 block.Serialize.length ++ block.Serialize
private def signedBlock (hashMerkleRoot : uint256) (nTime : Nat) : CBlock :=
  {nVersion := 1,hashPrevBlock := 0,hashMerkleRoot := hashMerkleRoot,nTime := nTime,vtx := [],cpbk := [],vchSig := List.replicate 10 5}

private theorem signedBlock_record {hashMerkleRoot : uint256} {nTime : Nat} (narrow : hashMerkleRoot < 2^256) (small : nTime < 2^32) (before : List UInt8) :
    RecordAt (before ++ recordOf (signedBlock hashMerkleRoot nTime)) before.length (signedBlock hashMerkleRoot nTime) := by
  have size : (signedBlock hashMerkleRoot nTime).Serialize.length = 85 := by
    simp [CBlock.Serialize,CBlockHeader.Serialize,intBytes,signedBlock,vectorForm,bytesForm,WriteCompactSize_length,GetSizeOfCompactSize]
  refine ⟨⟨⟨?_,?_,narrow,small⟩,⟨Nat.zero_le _,fun tx none => absurd none List.not_mem_nil⟩,.inl rfl,?_⟩,⟨by omega,size ▸ by decide⟩,?_⟩
  · exact (by decide : -2^31 ≤ (1 : Int) ∧ (1 : Int) < 2^31)
  · exact Nat.two_pow_pos 256
  · exact (by decide : 10 ≤ MAX_SIZE)
  · rw [List.drop_left]
    exact List.prefix_rfl

/-- A run of two turns, of which only the first may fail to read a block. -/
private theorem resumable_two {σ : Type} {rules : BlockRules σ} {start : Nat} {dbp : Option CDiskBlockPos} {first : LoadState σ}
    (resumes : (turn rules start dbp first).1.Resumes) (read : (turn rules start dbp (turn rules start dbp first).1).2 ≠ .undecoded)
    (last : (turn rules start dbp (turn rules start dbp first).1).1.goesOn = false) : Resumable rules start dbp first := by
  have two {s : LoadState σ} (heads : Heads rules start dbp first s) : s = first ∨ s = (turn rules start dbp first).1 ∨ s.goesOn = false := by
    induction heads with
    | first => exact .inl rfl
    | turn _ goes ran _ ih =>
      rcases ih with rfl | rfl | ended
      · exact .inr (.inl (by rw [ran]))
      · rw [ran] at last
        exact .inr (.inr last)
      · rw [ended] at goes
        exact absurd goes Bool.false_ne_true
  intro s s' heads goes ran
  rcases two heads with rfl | rfl | ended
  · rwa [ran] at resumes
  · rw [ran] at read
    exact absurd rfl read
  · rw [ended] at goes
    exact absurd goes Bool.false_ne_true

/-- The first record cannot be read before its end, and the loader goes back. -/
private def resumed : List UInt8 := pchMessageStart ++ leBytes 4 80 ++ List.replicate 80 0xFF ++ recordOf (signedBlock 0 0)

theorem LoadExternalBlockFile_finds_resumed : ∃ final loaded, LoadExternalBlockFile accepting resumed (fun _ => 1000) () none = some (final,loaded) ∧
    ∃ h ∈ final.processed, h.nBlockPos = 96 ∧ h.block = (signedBlock 0 0).loaded := by
  obtain ⟨final,loaded,ran,ordered,complete⟩ := @LoadExternalBlockFile_finds Unit accepting resumed (fun _ => 1000) (by decide +kernel) (fun _ => by decide) () none (.inl rfl)
  have record : RecordAt resumed 88 (signedBlock 0 0) :=
    signedBlock_record (by decide) (by decide) (pchMessageStart ++ leBytes 4 80 ++ List.replicate 80 0xFF)
  have resumable : Resumable accepting 0 none (opened accepting resumed (fun _ => 1000) () none).1 :=
    resumable_two ⟨by decide +kernel,by decide +kernel⟩ (by decide +kernel) (by decide +kernel)
  have calls : (LoadExternalBlockFile accepting resumed (fun _ => 1000) () none).map (fun r => r.1.processed.map fun h => (h.nBlockPos,h.isError)) =
      some [(96,false)] := by decide +kernel
  rw [ran] at calls
  have listed : final.processed.map (fun h => (h.nBlockPos,h.isError)) = [(96,false)] := Option.some.inj calls
  have only : ∀ h ∈ final.processed, h.nBlockPos = 96 ∧ h.isError = false := by
    intro h member
    have one := List.mem_map_of_mem (f := fun h : Processed => (h.nBlockPos,h.isError)) member
    rw [listed,List.mem_singleton] at one
    exact Prod.mk.inj one
  refine ⟨final,loaded,ran,?_⟩
  rcases complete resumable 88 (signedBlock 0 0) (Nat.zero_le _) record with ⟨h,member,at',is,-⟩ | ⟨h,member,before,-⟩ | ⟨h,member,error,-⟩
  · exact ⟨h,member,at',is⟩
  · exact absurd (only h member).1 (by omega)
  · exact absurd (only h member).2 (by simp [error])

/-- The file ends in the first record, and the second is not looked for. -/
theorem false_start_ends : RecordAt (pchMessageStart ++ leBytes 4 1000000 ++ recordOf (signedBlock (0xfffd0000*2^224) 255)) 8 (signedBlock (0xfffd0000*2^224) 255) ∧
    (LoadExternalBlockFile accepting (pchMessageStart ++ leBytes 4 1000000 ++ recordOf (signedBlock (0xfffd0000*2^224) 255)) (fun _ => 1000) () none).map
      (fun r => (r.1.processed.length,r.2)) = some (0,false) :=
  ⟨signedBlock_record (by decide) (by decide) (pchMessageStart ++ leBytes 4 1000000),by decide +kernel⟩

end Tetra
