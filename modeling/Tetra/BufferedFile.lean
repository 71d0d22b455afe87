import Mathlib
import Tetra.RingBuffer

/-!
A window on a file that can be read, searched and rewound: what is read is what the file
holds, however the file is read in pieces, and when the window can be rewound.
-/
namespace Tetra
open Ring

/-- A file that is read. Each call of `fread` may return fewer bytes than there are. -/
structure FILE where
  bytes : List UInt8
  counts : Nat → Nat
  calls : Nat := 0
  pos : Nat := 0
  feof : Bool := false

namespace FILE

/-- `fread` of single bytes; none are an error where there are more. -/
def fread (src : FILE) (n : Nat) : FILE × List UInt8 :=
  let left := src.bytes.length-src.pos
  let got := min (min n (src.counts src.calls)) left
  ({src with calls := src.calls+1,pos := src.pos+got,feof := src.feof || (got == left && left < n)},(src.bytes.drop src.pos).take got)

theorem fread_length (src : FILE) (n : Nat) : (src.fread n).2.length = min (min n (src.counts src.calls)) (src.bytes.length-src.pos) := by
  rw [fread,List.length_take,List.length_drop]
  omega

theorem fread_next (src : FILE) (n : Nat) : (src.fread n).2 = (src.bytes.drop src.pos).take (src.fread n).2.length := by
  rw [fread_length]
  rfl

theorem fread_pos (src : FILE) (n : Nat) : (src.fread n).1.pos = src.pos+(src.fread n).2.length := by
  rw [fread_length]
  rfl

theorem fread_feof {src : FILE} {n : Nat} (before : src.feof = true → src.bytes.length ≤ src.pos) (ended : (src.fread n).1.feof = true) :
    src.bytes.length ≤ (src.fread n).1.pos := by
  rw [fread,Bool.or_eq_true,Bool.and_eq_true,beq_iff_eq] at ended
  change src.bytes.length ≤ src.pos+min (min n (src.counts src.calls)) (src.bytes.length-src.pos)
  rcases ended with already | ⟨all,-⟩
  · have behind := before already
    omega
  · omega

end FILE

/-- What a call throws. A loop without an end is told apart. -/
inductive StreamError
  | failure (what : String)
  | endless
deriving DecidableEq

/-- `a-b` of 64-bit numbers. -/
def sub64 (a b : Nat) : Nat := (a+2^64-b)%2^64

/-- Every failure throws, so `state` is the one bit. -/
structure CBufferedFile where
  src : FILE
  nSrcPos : Nat := 0
  nReadPos : Nat := 0
  nReadLimit : Nat := 2^64-1
  nRewind : Nat
  /-- `vchBuf.size()` -/
  size : Nat
  vchBuf : Nat → UInt8 := fun _ => 0
  failbit : Bool := false

namespace CBufferedFile

def good (s : CBufferedFile) : Bool := !s.failbit
def eof (s : CBufferedFile) : Bool := s.nReadPos == s.nSrcPos && s.src.feof
def GetPos (s : CBufferedFile) : Nat := s.nReadPos

/-- Positions in the buffer are 32-bit numbers. -/
def Fill (s : CBufferedFile) : CBufferedFile × Except StreamError Bool :=
  let pos := s.nSrcPos%s.size%2^32
  let readNow := (s.size-pos)%2^32
  let nAvail := sub64 (sub64 s.size (sub64 s.nSrcPos s.nReadPos)) s.nRewind%2^32
  let readNow := if nAvail < readNow then nAvail else readNow
  if readNow = 0 then (s,.ok false)
  else
    let (src,bytes) := s.src.fread readNow
    if bytes.length = 0 then
      ({s with src := src,failbit := true},
        .error (.failure (if src.feof then "CBufferedFile::Fill : end of file" else "CBufferedFile::Fill : fread failed")))
    else ({s with src := src,vchBuf := Ring.overwrite s.vchBuf pos bytes,nSrcPos := (s.nSrcPos+bytes.length)%2^64},.ok true)

/-- Before a byte is looked at. -/
def fetch (s : CBufferedFile) : CBufferedFile × Except StreamError Bool := if s.nReadPos = s.nSrcPos then s.Fill else (s,.ok true)

/-- How many bytes are copied at once. -/
def chunk (s : CBufferedFile) (nSize : Nat) : Nat :=
  let pos := s.nReadPos%s.size%2^32
  let nNow := if (nSize+pos)%2^64 > s.size then s.size-pos else nSize
  if (nNow+s.nReadPos)%2^64 > s.nSrcPos then sub64 s.nSrcPos s.nReadPos else nNow

/-- The loop of `read`. Every turn that is any use copies a byte. -/
def readLoop : Nat → CBufferedFile → Nat → CBufferedFile × Except StreamError (List UInt8)
  | 0, s, nSize => (s,if nSize = 0 then .ok [] else .error .endless)
  | fuel+1, s, nSize =>
    if nSize = 0 then (s,.ok [])
    else
      match s.fetch with
      | (s,.error e) => (s,.error e)
      | (s,.ok _) =>
        let nNow := s.chunk nSize
        let (after,rest) := readLoop fuel {s with nReadPos := (s.nReadPos+nNow)%2^64} (sub64 nSize nNow)
        (after,rest.map fun rest => block s.vchBuf (s.nReadPos%s.size%2^32) nNow ++ rest)

def read (s : CBufferedFile) (nSize : Nat) : CBufferedFile × Except StreamError (List UInt8) :=
  if (nSize+s.nReadPos)%2^64 > s.nReadLimit then (s,.error (.failure "Read attempted past buffer limit"))
  else if (nSize+s.nRewind)%2^64 > s.size then (s,.error (.failure "Read larger than buffer size"))
  else readLoop nSize s nSize

/-- Rewinds to a position; where it cannot, it goes to the nearest that it takes for possible. -/
def SetPos (s : CBufferedFile) (nPos : Nat) : CBufferedFile × Bool :=
  if (nPos+s.nRewind)%2^64 < s.nSrcPos then ({s with nReadPos := sub64 s.nSrcPos s.nRewind},false)
  else if nPos > s.nSrcPos then ({s with nReadPos := s.nSrcPos},false)
  else ({s with nReadPos := nPos},true)

/-- A position from `2^63` on is a negative offset, which `fseek` refuses. -/
def Seek (s : CBufferedFile) (nPos : Nat) : CBufferedFile × Bool :=
  if nPos ≥ 2^63 then (s,false)
  else ({s with src := {s.src with pos := nPos,feof := false},nSrcPos := nPos,nReadPos := nPos,failbit := false},true)

def SetLimit (s : CBufferedFile) (nPos : Nat := 2^64-1) : CBufferedFile × Bool :=
  if nPos < s.nReadPos then (s,false) else ({s with nReadLimit := nPos},true)

/-- The loop of `FindByte`. -/
def findLoop (ch : UInt8) : Nat → CBufferedFile → CBufferedFile × Except StreamError Unit
  | 0, s => (s,.error .endless)
  | fuel+1, s =>
    match s.fetch with
    | (s,.error e) => (s,.error e)
    | (s,.ok _) => if s.vchBuf (s.nReadPos%s.size) = ch then (s,.ok ()) else findLoop ch fuel {s with nReadPos := (s.nReadPos+1)%2^64}

/-- Every turn goes on by a byte, of which there are no more than the file has. -/
def FindByte (s : CBufferedFile) (ch : UInt8) : CBufferedFile × Except StreamError Unit := findLoop ch (s.src.bytes.length+1) s

/-! ### The window -/

/-- From `start` on the buffer holds what was last read from the file. -/
structure Sound (bytes : List UInt8) (counts : Nat → Nat) (start : Nat) (s : CBufferedFile) : Prop where
  source : s.src.bytes = bytes ∧ s.src.counts = counts
  short : bytes.length < 2^63 ∧ start < 2^63
  narrow : s.nRewind < s.size ∧ s.size < 2^32
  pos : s.src.pos = s.nSrcPos
  feof : s.src.feof = true → bytes.length ≤ s.nSrcPos
  inside : s.nSrcPos ≤ max start bytes.length
  read : start ≤ s.nReadPos ∧ s.nReadPos ≤ s.nSrcPos
  kept : s.nSrcPos ≤ s.nReadPos+s.size
  cells : Mirrors s.size s.vchBuf bytes start s.nSrcPos

/-- The file has no more bytes, or reading it fails. -/
def Ends (bytes : List UInt8) (counts : Nat → Nat) (p : Nat) : Prop := bytes.length ≤ p ∨ ∃ i, counts i = 0

/-- What reading and searching do to a window: it goes on, and is filled no farther than a
    turn without the part that is kept for rewinding. -/
structure Onward (bytes : List UInt8) (counts : Nat → Nat) (start : Nat) (s s' : CBufferedFile) : Prop where
  sound : s'.Sound bytes counts start
  nReadLimit : s'.nReadLimit = s.nReadLimit
  nRewind : s'.nRewind = s.nRewind
  size : s'.size = s.size
  forward : s.nReadPos ≤ s'.nReadPos
  ahead : s'.nSrcPos ≤ max s.nSrcPos (s'.nReadPos+(s.size-s.nRewind))

section
variable {bytes : List UInt8} {counts : Nat → Nat} {start : Nat} {s s' s'' : CBufferedFile}

theorem Onward.refl (sound : s.Sound bytes counts start) : Onward bytes counts start s s := ⟨sound,rfl,rfl,rfl,le_rfl,le_max_left ..⟩

theorem Onward.trans (first : Onward bytes counts start s s') (second : Onward bytes counts start s' s'') : Onward bytes counts start s s'' := by
  refine ⟨second.sound,second.nReadLimit.trans first.nReadLimit,second.nRewind.trans first.nRewind,second.size.trans first.size,
    first.forward.trans second.forward,?_⟩
  have ahead := first.ahead
  have further := second.ahead
  have forward := second.forward
  rw [first.size,first.nRewind] at further
  omega

/-- An empty window at the end of what was read is filled, or the file ends there. -/
theorem fill_sound (sound : s.Sound bytes counts start) (empty : s.nReadPos = s.nSrcPos) :
    (∃ s', s.Fill = (s',.ok true) ∧ Onward bytes counts start s s' ∧ s'.nReadPos = s.nReadPos ∧ s.nSrcPos < s'.nSrcPos ∧ s'.failbit = s.failbit) ∨
      ∃ s' what, s.Fill = (s',.error (.failure what)) ∧ Onward bytes counts start s s' ∧ s'.nReadPos = s.nReadPos ∧ s'.failbit = true ∧
        Ends bytes counts s.nReadPos := by
  obtain ⟨narrow,small⟩ := sound.narrow
  have short := sound.short
  have inside := sound.inside
  have cell := Nat.mod_lt s.nSrcPos (by omega : 0 < s.size)
  have pos : s.nSrcPos%s.size%2^32 = s.nSrcPos%s.size := Nat.mod_eq_of_lt (by omega)
  have avail : sub64 (sub64 s.size (sub64 s.nSrcPos s.nReadPos)) s.nRewind%2^32 = s.size-s.nRewind := by
    rw [empty,sub64,sub64,sub64]
    omega
  have room : (s.size-s.nSrcPos%s.size)%2^32 = s.size-s.nSrcPos%s.size := Nat.mod_eq_of_lt (by omega)
  rw [Fill,pos,avail,room]
  dsimp only
  generalize wanted : (if s.size-s.nRewind < s.size-s.nSrcPos%s.size then s.size-s.nRewind else s.size-s.nSrcPos%s.size) = readNow
  have bounds : 0 < readNow ∧ readNow ≤ s.size-s.nRewind ∧ s.nSrcPos%s.size+readNow ≤ s.size := by
    rw [← wanted]
    split <;> omega
  have long := s.src.fread_length readNow
  have next := s.src.fread_next readNow
  have moved := s.src.fread_pos readNow
  have ended := @FILE.fread_feof s.src readNow (by rw [sound.source.1,sound.pos]; exact sound.feof)
  rw [sound.source.1,sound.source.2,sound.pos] at long
  rw [sound.source.1] at ended
  rw [sound.source.1,sound.pos] at next
  have source : (s.src.fread readNow).1.bytes = bytes ∧ (s.src.fread readNow).1.counts = counts := sound.source
  rw [if_neg (by omega)]
  generalize s.src.fread readNow = got at long next moved ended source
  obtain ⟨src,out⟩ := got
  dsimp only at long next moved ended source ⊢
  by_cases none : out.length = 0
  · right
    rw [if_pos none]
    have ends : Ends bytes counts s.nReadPos := by
      by_cases more : bytes.length ≤ s.nReadPos
      · exact .inl more
      · exact .inr ⟨s.src.calls,by omega⟩
    have still : src.pos = s.nSrcPos := by rw [moved,none,sound.pos]; rfl
    have stays : Onward bytes counts start s {s with src := src,failbit := true} :=
      ⟨⟨source,short,⟨narrow,small⟩,still,fun last => still ▸ ended last,inside,sound.read,sound.kept,sound.cells⟩,rfl,rfl,rfl,le_rfl,le_max_left ..⟩
    exact ⟨_,_,rfl,stays,rfl,rfl,ends⟩
  · left
    rw [if_neg none]
    have count : (s.nSrcPos+out.length)%2^64 = s.nSrcPos+out.length := Nat.mod_eq_of_lt (by omega)
    have goes : Onward bytes counts start s
        {s with src := src,vchBuf := Ring.overwrite s.vchBuf (s.nSrcPos%s.size) out,nSrcPos := (s.nSrcPos+out.length)%2^64} := by
      rw [count]
      have there : src.pos = s.nSrcPos+out.length := by rw [moved,sound.pos]
      refine ⟨⟨source,short,⟨narrow,small⟩,there,fun last => there ▸ ended last,?_,⟨sound.read.1,?_⟩,?_,sound.cells.write next (by omega)⟩,rfl,rfl,rfl,le_rfl,?_⟩
      · change s.nSrcPos+out.length ≤ _
        omega
      · change s.nReadPos ≤ s.nSrcPos+out.length
        omega
      · change s.nSrcPos+out.length ≤ s.nReadPos+s.size
        omega
      · change s.nSrcPos+out.length ≤ max s.nSrcPos (s.nReadPos+(s.size-s.nRewind))
        omega
    refine ⟨_,rfl,goes,rfl,?_,rfl⟩
    change s.nSrcPos < (s.nSrcPos+out.length)%2^64
    omega

/-- A byte that is looked at is there. -/
theorem fetch_sound (sound : s.Sound bytes counts start) :
    (∃ s' filled, s.fetch = (s',.ok filled) ∧ Onward bytes counts start s s' ∧ s'.nReadPos = s.nReadPos ∧ s'.nReadPos < s'.nSrcPos ∧
      s'.failbit = s.failbit) ∨
      ∃ s' what, s.fetch = (s',.error (.failure what)) ∧ Onward bytes counts start s s' ∧ s'.nReadPos = s.nReadPos ∧ s'.failbit = true ∧
        Ends bytes counts s.nReadPos := by
  rw [fetch]
  by_cases empty : s.nReadPos = s.nSrcPos
  · rw [if_pos empty]
    rcases fill_sound sound empty with ⟨s',filled,goes,same,longer,good⟩ | failed
    · exact .inl ⟨s',true,filled,goes,same,by omega,good⟩
    · exact .inr failed
  · rw [if_neg empty]
    have := sound.read.2
    exact .inl ⟨s,true,rfl,.refl sound,rfl,by omega,rfl⟩

/-- The read position may go on to where the file was read. -/
theorem move_sound (sound : s.Sound bytes counts start) {k : Nat} (inside : s.nReadPos+k ≤ s.nSrcPos) :
    Onward bytes counts start s {s with nReadPos := (s.nReadPos+k)%2^64} := by
  have short := sound.short
  have filled := sound.inside
  have kept := sound.kept
  have read := sound.read
  have count : (s.nReadPos+k)%2^64 = s.nReadPos+k := Nat.mod_eq_of_lt (by omega)
  rw [count]
  refine ⟨⟨sound.source,short,sound.narrow,sound.pos,sound.feof,filled,⟨?_,inside⟩,?_,sound.cells⟩,rfl,rfl,rfl,Nat.le_add_right ..,le_max_left ..⟩
  · exact read.1.trans (Nat.le_add_right ..)
  · change s.nSrcPos ≤ s.nReadPos+k+s.size
    omega

theorem chunk_bounds (sound : s.Sound bytes counts start) (there : s.nReadPos < s.nSrcPos) {nSize : Nat} (some : nSize ≠ 0) (small : nSize < 2^63) :
    0 < s.chunk nSize ∧ s.chunk nSize ≤ nSize ∧ s.nReadPos+s.chunk nSize ≤ s.nSrcPos ∧ s.nReadPos%s.size+s.chunk nSize ≤ s.size := by
  have narrow := sound.narrow
  have short := sound.short
  have filled := sound.inside
  have cell := Nat.mod_lt s.nReadPos (by omega : 0 < s.size)
  have pos : s.nReadPos%s.size%2^32 = s.nReadPos%s.size := Nat.mod_eq_of_lt (by omega)
  have left : sub64 s.nSrcPos s.nReadPos = s.nSrcPos-s.nReadPos := by rw [sub64]; omega
  rw [chunk,pos,left]
  split_ifs <;> omega

theorem readLoop_sound (fuel : Nat) (sound : s.Sound bytes counts start) {nSize : Nat} (enough : nSize ≤ fuel) (small : nSize < 2^63) :
    (∃ s', readLoop fuel s nSize = (s',.ok ((bytes.drop s.nReadPos).take nSize)) ∧ Onward bytes counts start s s' ∧
      s'.nReadPos = s.nReadPos+nSize ∧ s'.failbit = s.failbit) ∨
      ∃ s' what, readLoop fuel s nSize = (s',.error (.failure what)) ∧ Onward bytes counts start s s' ∧ s'.nReadPos < s.nReadPos+nSize ∧
        s'.failbit = true ∧ Ends bytes counts s'.nReadPos := by
  induction fuel generalizing s nSize with
  | zero =>
    obtain rfl := Nat.le_zero.mp enough
    exact .inl ⟨s,rfl,.refl sound,rfl,rfl⟩
  | succ fuel ih =>
    rw [readLoop]
    by_cases none : nSize = 0
    · rw [if_pos none,none]
      exact .inl ⟨s,rfl,.refl sound,rfl,rfl⟩
    rw [if_neg none]
    rcases fetch_sound sound with ⟨t,filled,fetched,goes,same,there,good⟩ | ⟨t,what,fetched,goes,same,bad,ends⟩
    · rw [fetched]
      dsimp only
      obtain ⟨some,few,inside,room⟩ := chunk_bounds goes.sound there none small
      have moved := move_sound goes.sound inside
      have short := goes.sound.short
      have filled := goes.sound.inside
      have count : (t.nReadPos+t.chunk nSize)%2^64 = t.nReadPos+t.chunk nSize := Nat.mod_eq_of_lt (by omega)
      have left : sub64 nSize (t.chunk nSize) = nSize-t.chunk nSize := by rw [sub64]; omega
      have narrow := goes.sound.narrow
      have cell := Nat.mod_lt t.nReadPos (by omega : 0 < t.size)
      have pos : t.nReadPos%t.size%2^32 = t.nReadPos%t.size := Nat.mod_eq_of_lt (by omega)
      have copied := goes.sound.cells.block_eq goes.sound.read.1 inside goes.sound.kept room
      rw [left,pos,copied,same]
      rw [count,same] at moved
      rw [same] at count
      rcases ih moved.sound (show nSize-t.chunk nSize ≤ fuel by omega) (by omega) with ⟨s',rest,further,last,good'⟩ | ⟨s',what,rest,further,last,bad,ends⟩
      · left
        rw [count,rest]
        refine ⟨s',?_,(goes.trans moved).trans further,?_,good'.trans good⟩
        · have whole : nSize = t.chunk nSize+(nSize-t.chunk nSize) := by omega
          have parts := @List.take_add _ (bytes.drop s.nReadPos) (t.chunk nSize) (nSize-t.chunk nSize)
          rw [← whole,List.drop_drop] at parts
          rw [parts]
          rfl
        · dsimp only at last
          omega
      · right
        rw [count,rest]
        refine ⟨s',what,rfl,(goes.trans moved).trans further,?_,bad,ends⟩
        dsimp only at last
        omega
    · rw [fetched]
      exact .inr ⟨t,what,rfl,goes,by omega,bad,same ▸ ends⟩

/-- What the limit and the size of the window let through is what the file holds. -/
theorem read_sound (sound : s.Sound bytes counts start) {nSize : Nat} (small : nSize < 2^63) :
    (∃ s', s.read nSize = (s',.ok ((bytes.drop s.nReadPos).take nSize)) ∧ Onward bytes counts start s s' ∧ s'.nReadPos = s.nReadPos+nSize ∧
      s'.failbit = s.failbit ∧ s.nReadPos+nSize ≤ s.nReadLimit ∧ nSize+s.nRewind ≤ s.size) ∨
      ∃ s' what, s.read nSize = (s',.error (.failure what)) ∧ Onward bytes counts start s s' ∧
        (s' = s ∧ (s.nReadLimit < s.nReadPos+nSize ∨ s.size < nSize+s.nRewind) ∨
          s'.nReadPos < s.nReadPos+nSize ∧ s'.failbit = true ∧ Ends bytes counts s'.nReadPos) := by
  have narrow := sound.narrow
  have short := sound.short
  have filled := sound.inside
  have read := sound.read
  have upTo : (nSize+s.nReadPos)%2^64 = nSize+s.nReadPos := Nat.mod_eq_of_lt (by omega)
  have room : (nSize+s.nRewind)%2^64 = nSize+s.nRewind := Nat.mod_eq_of_lt (by omega)
  rw [CBufferedFile.read,upTo,room]
  by_cases limited : nSize+s.nReadPos > s.nReadLimit
  · rw [if_pos limited]
    exact .inr ⟨s,_,rfl,.refl sound,.inl ⟨rfl,.inl (by omega)⟩⟩
  rw [if_neg limited]
  by_cases large : nSize+s.nRewind > s.size
  · rw [if_pos large]
    exact .inr ⟨s,_,rfl,.refl sound,.inl ⟨rfl,.inr large⟩⟩
  rw [if_neg large]
  rcases readLoop_sound nSize sound le_rfl small with ⟨s',done,goes,same,good⟩ | ⟨s',what,failed,goes,less,bad,ends⟩
  · exact .inl ⟨s',done,goes,same,good,by omega,by omega⟩
  · exact .inr ⟨s',what,failed,goes,.inr ⟨less,bad,ends⟩⟩

/-- A rewind whose sum wraps, which goes in front of the start. -/
def Wraps (start : Nat) (s : CBufferedFile) (nPos : Nat) : Prop :=
  s.nSrcPos < start+s.nRewind ∧ 2^64 ≤ nPos+s.nRewind ∧ nPos+s.nRewind < 2^64+s.nSrcPos

theorem rewound_sound (sound : s.Sound bytes counts start) {p : Nat} (after : start ≤ p) (inside : p ≤ s.nSrcPos) (kept : s.nSrcPos ≤ p+s.size) :
    Sound bytes counts start {s with nReadPos := p} :=
  ⟨sound.source,sound.short,sound.narrow,sound.pos,sound.feof,sound.inside,⟨after,inside⟩,kept,sound.cells⟩

theorem Sound.limited (sound : s.Sound bytes counts start) (nPos : Nat) : Sound bytes counts start {s with nReadLimit := nPos} :=
  ⟨sound.source,sound.short,sound.narrow,sound.pos,sound.feof,sound.inside,sound.read,sound.kept,sound.cells⟩

/-- Where the file is sought, the window begins anew. -/
theorem Seek_sound (sound : s.Sound bytes counts start) {nPos : Nat} (fits : nPos < 2^63) : (s.Seek nPos).1.Sound bytes counts nPos := by
  rw [Seek,if_neg (by omega)]
  exact ⟨sound.source,⟨sound.short.1,fits⟩,sound.narrow,rfl,by simp,le_max_left ..,⟨le_rfl,le_rfl⟩,Nat.le_add_right ..,.empty _ _ _ _⟩

theorem SetPos_sound (sound : s.Sound bytes counts start) {nPos : Nat} (fits : nPos < 2^64) (inside : ¬Wraps start s nPos) (after : start ≤ nPos) :
    ∃ p, (s.SetPos nPos).1 = {s with nReadPos := p} ∧ Sound bytes counts start {s with nReadPos := p} := by
  have narrow := sound.narrow
  have short := sound.short
  have filled := sound.inside
  have read := sound.read
  rw [Wraps] at inside
  rw [SetPos]
  split
  next far =>
    have back : sub64 s.nSrcPos s.nRewind = s.nSrcPos-s.nRewind := by rw [sub64]; omega
    rw [back]
    exact ⟨_,rfl,rewound_sound sound (by omega) (Nat.sub_le ..) (by omega)⟩
  next near =>
    split
    · exact ⟨_,rfl,rewound_sound sound (by omega) le_rfl (Nat.le_add_right ..)⟩
    · exact ⟨_,rfl,rewound_sound sound after (by omega) (by omega)⟩

/-- A rewind succeeds up to `nRewind` bytes behind what was read from the file. -/
theorem SetPos_near (sound : s.Sound bytes counts start) {nPos : Nat} (inside : nPos ≤ s.nSrcPos) :
    ((s.SetPos nPos).2 = true ↔ s.nSrcPos ≤ nPos+s.nRewind) ∧ (s.nSrcPos ≤ nPos+s.nRewind → s.SetPos nPos = ({s with nReadPos := nPos},true)) := by
  have narrow := sound.narrow
  have short := sound.short
  have filled := sound.inside
  have sum : (nPos+s.nRewind)%2^64 = nPos+s.nRewind := Nat.mod_eq_of_lt (by omega)
  rw [SetPos,sum]
  by_cases far : nPos+s.nRewind < s.nSrcPos
  · rw [if_pos far]
    exact ⟨by simp; omega,fun near => absurd near (by omega)⟩
  · rw [if_neg far,if_neg (by omega)]
    exact ⟨by simp; omega,fun _ => rfl⟩

/-- A rewind in the window does not go farther back than it is asked for. -/
theorem SetPos_back (sound : s.Sound bytes counts start) {nPos : Nat} (after : start ≤ nPos) (inside : nPos ≤ s.nSrcPos) :
    ∃ p, (s.SetPos nPos).1 = {s with nReadPos := p} ∧ nPos ≤ p ∧ (s.nSrcPos ≤ nPos+s.nRewind → p = nPos) ∧
      Sound bytes counts start {s with nReadPos := p} := by
  have narrow := sound.narrow
  by_cases near : s.nSrcPos ≤ nPos+s.nRewind
  · exact ⟨nPos,by rw [(SetPos_near sound inside).2 near],le_rfl,fun _ => rfl,rewound_sound sound after inside (by omega)⟩
  · have short := sound.short
    have filled := sound.inside
    have back : sub64 s.nSrcPos s.nRewind = s.nSrcPos-s.nRewind := by rw [sub64]; omega
    rw [SetPos,if_pos (by omega),back]
    exact ⟨_,rfl,by omega,fun close => absurd close near,rewound_sound sound (by omega) (Nat.sub_le ..) (by omega)⟩

/-- The search stops at the first such byte from the read position on. -/
theorem findLoop_sound (ch : UInt8) (fuel : Nat) (sound : s.Sound bytes counts start) (enough : max start bytes.length < s.nReadPos+fuel) :
    (∃ s', findLoop ch fuel s = (s',.ok ()) ∧ Onward bytes counts start s s' ∧ bytes[s'.nReadPos]? = some ch ∧
      (∀ p, s.nReadPos ≤ p → p < s'.nReadPos → bytes[p]? ≠ some ch) ∧ s'.failbit = s.failbit) ∨
      ∃ s' what, findLoop ch fuel s = (s',.error (.failure what)) ∧ Onward bytes counts start s s' ∧ s'.failbit = true ∧
        (∀ p, s.nReadPos ≤ p → p < s'.nReadPos → bytes[p]? ≠ some ch) ∧ Ends bytes counts s'.nReadPos := by
  induction fuel generalizing s with
  | zero =>
    have filled := sound.inside
    have read := sound.read
    omega
  | succ fuel ih =>
    rw [findLoop]
    rcases fetch_sound sound with ⟨t,filled,fetched,goes,same,there,good⟩ | ⟨t,what,fetched,goes,same,bad,ends⟩
    · rw [fetched]
      dsimp only
      have cell := goes.sound.cells t.nReadPos goes.sound.read.1 there goes.sound.kept
      by_cases found : t.vchBuf (t.nReadPos%t.size) = ch
      · rw [if_pos found]
        exact .inl ⟨t,rfl,goes,found ▸ cell,fun p _ _ => by omega,good⟩
      · rw [if_neg found]
        have moved := move_sound goes.sound (show t.nReadPos+1 ≤ t.nSrcPos by omega)
        have short := goes.sound.short
        have filled := goes.sound.inside
        have count : (t.nReadPos+1)%2^64 = t.nReadPos+1 := Nat.mod_eq_of_lt (by omega)
        rw [count] at moved ⊢
        have other : ∀ after, t.nReadPos+1 ≤ after → (∀ p, t.nReadPos+1 ≤ p → p < after → bytes[p]? ≠ some ch) →
            ∀ p, s.nReadPos ≤ p → p < after → bytes[p]? ≠ some ch := by
          intro after _ rest p low high
          by_cases here : p = t.nReadPos
          · rw [here,cell]
            exact fun same => found (Option.some.inj same)
          · exact rest p (by omega) high
        rcases ih moved.sound (show _ < t.nReadPos+1+fuel by omega) with ⟨s',done,further,at',rest,good'⟩ | ⟨s',what,failed,further,bad,rest,ends⟩
        · exact .inl ⟨s',done,(goes.trans moved).trans further,at',other _ further.forward rest,good'.trans good⟩
        · exact .inr ⟨s',what,failed,(goes.trans moved).trans further,bad,other _ further.forward rest,ends⟩
    · rw [fetched]
      exact .inr ⟨t,what,rfl,goes,bad,fun p _ _ => by omega,same ▸ ends⟩

theorem FindByte_sound (sound : s.Sound bytes counts start) (ch : UInt8) :
    (∃ s', s.FindByte ch = (s',.ok ()) ∧ Onward bytes counts start s s' ∧ bytes[s'.nReadPos]? = some ch ∧
      (∀ p, s.nReadPos ≤ p → p < s'.nReadPos → bytes[p]? ≠ some ch) ∧ s'.failbit = s.failbit) ∨
      ∃ s' what, s.FindByte ch = (s',.error (.failure what)) ∧ Onward bytes counts start s s' ∧ s'.failbit = true ∧
        (∀ p, s.nReadPos ≤ p → p < s'.nReadPos → bytes[p]? ≠ some ch) ∧ Ends bytes counts s'.nReadPos := by
  refine findLoop_sound ch _ sound ?_
  have read := sound.read
  rw [sound.source.1]
  omega

end

/-! ### Runs -/

/-- The window on a file that was just opened. -/
def new (bytes : List UInt8) (counts : Nat → Nat) (nBufSize nRewindIn : Nat) : CBufferedFile where
  src := {bytes := bytes,counts := counts}
  nRewind := nRewindIn
  size := nBufSize

inductive Call
  | read (nSize : Nat)
  | SetPos (nPos : Nat)
  | SetLimit (nPos : Nat)
  | FindByte (ch : UInt8)

/-- The window after a call, also after one that throws. -/
def perform (s : CBufferedFile) : Call → CBufferedFile
  | .read nSize => (s.read nSize).1
  | .SetPos nPos => (s.SetPos nPos).1
  | .SetLimit nPos => (s.SetLimit nPos).1
  | .FindByte ch => (s.FindByte ch).1

/-- What is read into is an object, positions are 64-bit numbers, and no rewind wraps. -/
def Allowed (s : CBufferedFile) : Call → Prop
  | .read nSize => nSize < 2^63
  | .SetPos nPos => nPos < 2^64 ∧ ¬Wraps 0 s nPos
  | .SetLimit nPos => nPos < 2^64
  | .FindByte _ => True

inductive Reached (first : CBufferedFile) : CBufferedFile → Prop
  | start : Reached first first
  | call {s : CBufferedFile} (reached : Reached first s) (call : Call) (allowed : s.Allowed call) : Reached first (s.perform call)

theorem perform_sound {bytes : List UInt8} {counts : Nat → Nat} {s : CBufferedFile} (sound : s.Sound bytes counts 0) {call : Call}
    (allowed : s.Allowed call) : (s.perform call).Sound bytes counts 0 ∧ (s.perform call).nRewind = s.nRewind := by
  cases call with
  | read nSize =>
    rw [perform]
    rcases read_sound sound allowed with ⟨s',done,goes,_⟩ | ⟨s',what,failed,goes,_⟩
    · rw [done]
      exact ⟨goes.sound,goes.nRewind⟩
    · rw [failed]
      exact ⟨goes.sound,goes.nRewind⟩
  | SetPos nPos =>
    obtain ⟨p,moved,sound'⟩ := SetPos_sound sound allowed.1 allowed.2 (Nat.zero_le _)
    rw [perform,moved]
    exact ⟨sound',rfl⟩
  | SetLimit nPos =>
    rw [perform,SetLimit]
    split
    · exact ⟨sound,rfl⟩
    · exact ⟨sound.limited nPos,rfl⟩
  | FindByte ch =>
    rw [perform]
    rcases FindByte_sound sound ch with ⟨s',done,goes,_⟩ | ⟨s',what,failed,goes,_⟩
    · rw [done]
      exact ⟨goes.sound,goes.nRewind⟩
    · rw [failed]
      exact ⟨goes.sound,goes.nRewind⟩

theorem new_sound {bytes : List UInt8} (short : bytes.length < 2^63) (counts : Nat → Nat) {nBufSize nRewind : Nat} (larger : nRewind < nBufSize)
    (narrow : nBufSize < 2^32) : (new bytes counts nBufSize nRewind).Sound bytes counts 0 :=
  ⟨⟨rfl,rfl⟩,⟨short,Nat.two_pow_pos 63⟩,⟨larger,narrow⟩,rfl,by simp [new],Nat.zero_le _,⟨le_rfl,le_rfl⟩,Nat.zero_le _,.empty _ _ _ _⟩

theorem Reached.sound {bytes : List UInt8} {counts : Nat → Nat} {nBufSize nRewind : Nat} (short : bytes.length < 2^63) (larger : nRewind < nBufSize)
    (narrow : nBufSize < 2^32) {s : CBufferedFile} (reached : Reached (new bytes counts nBufSize nRewind) s) :
    s.Sound bytes counts 0 ∧ s.nRewind = nRewind := by
  induction reached with
  | start => exact ⟨new_sound short counts larger narrow,rfl⟩
  | call _ call allowed ih =>
    have step := perform_sound ih.1 allowed
    exact ⟨step.1,step.2.trans ih.2⟩

/-- Whatever was called before, what is read is what the file holds; a rewind by up to
    `nRewind` bytes succeeds exactly if the window was not filled farther ahead. -/
theorem window {bytes : List UInt8} {counts : Nat → Nat} {nBufSize nRewind : Nat} (short : bytes.length < 2^63) (larger : nRewind < nBufSize)
    (narrow : nBufSize < 2^32) {s : CBufferedFile} (reached : Reached (new bytes counts nBufSize nRewind) s) :
    (∀ nSize after out, nSize < 2^63 → s.read nSize = (after,.ok out) →
      out = (bytes.drop s.GetPos).take nSize ∧ out.length = nSize ∧ after.GetPos = s.GetPos+nSize) ∧
    ((∀ k, k ≤ nRewind → k ≤ s.GetPos → (s.SetPos (s.GetPos-k)).2 = true) ↔ s.nSrcPos ≤ max s.nReadPos nRewind) := by
  obtain ⟨sound,same⟩ := reached.sound short larger narrow
  have back (k : Nat) : (s.SetPos (s.GetPos-k)).2 = true ↔ s.nSrcPos ≤ s.GetPos-k+nRewind := by
    have near := (@SetPos_near _ _ _ s sound (s.GetPos-k) ((Nat.sub_le ..).trans sound.read.2)).1
    rwa [same] at near
  constructor
  · intro nSize after out small done
    rcases read_sound sound small with ⟨s',read,goes,moved,-⟩ | ⟨s',what,failed,-⟩
    · obtain ⟨rfl,got⟩ := Prod.mk.inj (done.symm.trans read)
      obtain rfl := Except.ok.inj got
      have inside := goes.sound.inside
      have behind := goes.sound.read.2
      refine ⟨rfl,?_,moved⟩
      rw [List.length_take,List.length_drop]
      omega
    · exact absurd (Prod.mk.inj (done.symm.trans failed)).2 (by simp)
  · simp only [back]
    have pos : s.GetPos = s.nReadPos := rfl
    rw [pos]
    constructor
    · intro all
      have last := all (min nRewind s.nReadPos) (Nat.min_le_left ..) (Nat.min_le_right ..)
      omega
    · intro near k few inside
      omega

private def three : CBufferedFile := ((new [1,2,3] (fun _ => 1) 4 2).read 2).1

theorem window_three : three.GetPos = 2 ∧ ∀ k, k ≤ 2 → k ≤ three.GetPos → (three.SetPos (three.GetPos-k)).2 = true := by
  refine ⟨by decide +kernel,?_⟩
  exact (window (by decide) (by decide) (by decide) (Reached.start.call (.read 2) (by decide : 2 < 2^63))).2.mpr (by decide +kernel)

/-- A byte was read, and 20 are in the window. -/
theorem rewind_clamped : Reached (new (List.replicate 25 0) (fun _ => 100) 30 10) ((new (List.replicate 25 0) (fun _ => 100) 30 10).read 1).1 ∧
    ((new (List.replicate 25 0) (fun _ => 100) 30 10).read 1).1.GetPos = 1 ∧
    (((new (List.replicate 25 0) (fun _ => 100) 30 10).read 1).1.SetPos (1-1)).2 = false :=
  ⟨Reached.start.call (.read 1) (by decide : 1 < 2^63),by decide +kernel,by decide +kernel⟩

end CBufferedFile

end Tetra
