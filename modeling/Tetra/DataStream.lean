import Mathlib
import Tetra.Queues
import Tetra.Serialize

/-!
A data stream as the queue of its unread bytes, over any sequence of operations on streams
that are written to, read from and put into each other.
-/
namespace Tetra
open Queues

/-- `CDataStream`: `state` as its failbit, which every stream throws on. -/
structure CDataStream where
  vch : List UInt8
  nReadPos : Nat := 0
  failbit : Bool := false
deriving DecidableEq

namespace CDataStream

/-- What a call returns; an iterator is its distance from `begin()` afterwards. -/
inductive Answer
  | done
  | bytes (pch : List UInt8)
  | iterator (k : Nat)
  | rewound (b : Bool)
  | throws (message : String)
  | asserts (condition : String)
deriving DecidableEq

def unread (s : CDataStream) : List UInt8 := s.vch.drop s.nReadPos
def size (s : CDataStream) : Nat := s.vch.length-s.nReadPos
def empty (s : CDataStream) : Bool := s.vch.length == s.nReadPos

/-- `operator+=` -/
def append (s b : CDataStream) : CDataStream := {s with vch := s.vch ++ b.unread}

/-- Iterators are distances from `vch.begin()`. -/
def vectorInsert (s : CDataStream) (it : Nat) (xs : List UInt8) : CDataStream := {s with vch := s.vch.take it ++ xs ++ s.vch.drop it}
def vectorErase (s : CDataStream) (first last : Nat) : CDataStream := {s with vch := s.vch.take first ++ s.vch.drop last}
def clear (s : CDataStream) : CDataStream := {s with vch := [],nReadPos := 0}

def insert (s : CDataStream) (it : Nat) (x : UInt8) : Nat × CDataStream := (it,s.vectorInsert it [x])
/-- `insert(it, n, x)` -/
def insertCopies (s : CDataStream) (it n : Nat) (x : UInt8) : CDataStream := s.vectorInsert it (List.replicate n x)
/-- `insert(it, first, last)`: at the front, over what was read, when there's room. -/
def insertRange (s : CDataStream) (it : Nat) (range : List UInt8) : CDataStream :=
  if it = s.nReadPos ∧ range.length%2^32 ≤ s.nReadPos then
    let nReadPos := s.nReadPos-range.length%2^32
    {s with vch := s.vch.take nReadPos ++ range ++ s.vch.drop (nReadPos+range.length),nReadPos := nReadPos}
  else s.vectorInsert it range

def erase (s : CDataStream) (it : Nat) : Nat × CDataStream :=
  if it = s.nReadPos then
    let nReadPos := (s.nReadPos+1)%2^32
    if nReadPos ≥ s.vch.length then (0,s.clear) else (nReadPos,{s with nReadPos := nReadPos})
  else (it,s.vectorErase it (it+1))

/-- `erase(first, last)` -/
def eraseRange (s : CDataStream) (first last : Nat) : Nat × CDataStream :=
  if first = s.nReadPos then
    if last = s.vch.length then (0,s.clear) else (last,{s with nReadPos := last%2^32})
  else (first,s.vectorErase first last)

def Compact (s : CDataStream) : CDataStream := {s with vch := s.vch.drop s.nReadPos,nReadPos := 0}

def Rewind (s : CDataStream) (n : Nat) : Bool × CDataStream :=
  if n > s.nReadPos then (false,s) else (true,{s with nReadPos := s.nReadPos-n})

/-- `read` and `ignore`: the end of data is thrown before anything else is done. -/
def consume (s : CDataStream) (nSize : Nat) (message : String) (answer : Answer) : Answer × CDataStream :=
  let nReadPosNext := (s.nReadPos+nSize)%2^32
  if nReadPosNext ≥ s.vch.length then
    if nReadPosNext > s.vch.length then (.throws message,{s with failbit := true}) else (answer,s.clear)
  else (answer,{s with nReadPos := nReadPosNext})

def read (s : CDataStream) (nSize : Nat) : Answer × CDataStream :=
  s.consume nSize "CDataStream::read() : end of data" (.bytes (s.unread.take nSize))
def ignore (s : CDataStream) (nSize : Nat) : Answer × CDataStream := s.consume nSize "CDataStream::ignore() : end of data" .done

def write (s : CDataStream) (pch : List UInt8) : CDataStream := {s with vch := s.vch ++ pch}

/-- `s << t`: the whole of `vch`, whose size becomes an `int`. -/
def Serialize (t s : CDataStream) : Answer × CDataStream :=
  if t.vch.isEmpty then (.done,s)
  else
    let nSize := intOf (t.vch.length%2^32)
    if nSize < 0 then (.asserts "nSize >= 0",s) else (.done,s.write (t.vch.take nSize.toNat))

/-! ### Runs -/

variable {ι : Type} [DecidableEq ι]

/-- A call on one of some streams; iterators are given by their distance from `begin()`. -/
inductive Op (ι : Type)
  | write (s : ι) (pch : List UInt8)
  | read (s : ι) (nSize : Nat)
  | ignore (s : ι) (nSize : Nat)
  | insert (s : ι) (k : Nat) (x : UInt8)
  | insertCopies (s : ι) (k n : Nat) (x : UInt8)
  | insertRange (s : ι) (k : Nat) (range : List UInt8)
  | erase (s : ι) (k : Nat)
  | eraseRange (s : ι) (k l : Nat)
  | Rewind (s : ι) (n : Nat)
  | Compact (s : ι)
  /-- `s += b` -/
  | append (s b : ι)
  /-- `s << t` -/
  | Serialize (s t : ι)

/-- Iterators point into the unread bytes, and streams are put into other streams. -/
def Op.Valid (streams : ι → CDataStream) : Op ι → Prop
  | .insert s k _ => k ≤ (streams s).size
  | .insertCopies s k _ _ => k ≤ (streams s).size
  | .insertRange s k _ => k ≤ (streams s).size
  | .erase s k => k < (streams s).size
  | .eraseRange s k l => k ≤ l ∧ l ≤ (streams s).size
  | .append s b => s ≠ b
  | .Serialize s t => s ≠ t
  | _ => True

/-- A stream goes into another with nothing read from it, and numbers stay in 32 bits: the
    position after what is read, the length of what goes before it, and the size of a stream
    that goes into another, which has a sign. -/
def Op.Plain (streams : ι → CDataStream) : Op ι → Prop
  | .read s nSize => (streams s).nReadPos+nSize < 2^32
  | .ignore s nSize => (streams s).nReadPos+nSize < 2^32
  | .insertRange s k range => k = 0 → range.length%2^32 ≤ (streams s).nReadPos → range.length < 2^32
  | .erase s k => k = 0 → (streams s).nReadPos+1 < 2^32
  | .eraseRange s k l => k = 0 → l < (streams s).size → (streams s).nReadPos+l < 2^32
  | .Serialize _ t => (streams t).nReadPos = 0 ∧ (streams t).vch.length < 2^31
  | _ => True

/-- The stream that a call is made on. -/
def Op.target : Op ι → ι
  | .write s _ | .read s _ | .ignore s _ | .insert s _ _ | .insertCopies s _ _ _ | .insertRange s _ _ | .erase s _ | .eraseRange s _ _
  | .Rewind s _ | .Compact s | .append s _ | .Serialize s _ => s

/-- An iterator as its distance from `begin()`. -/
def pointed (result : Nat × CDataStream) : Answer × CDataStream := (.iterator (result.1-result.2.nReadPos),result.2)

/-- What a call returns, and its stream afterwards. -/
def call (streams : ι → CDataStream) : Op ι → Answer × CDataStream
  | .write s pch => (.done,(streams s).write pch)
  | .read s nSize => (streams s).read nSize
  | .ignore s nSize => (streams s).ignore nSize
  | .insert s k x => pointed ((streams s).insert ((streams s).nReadPos+k) x)
  | .insertCopies s k n x => (.done,(streams s).insertCopies ((streams s).nReadPos+k) n x)
  | .insertRange s k range => (.done,(streams s).insertRange ((streams s).nReadPos+k) range)
  | .erase s k => pointed ((streams s).erase ((streams s).nReadPos+k))
  | .eraseRange s k l => pointed ((streams s).eraseRange ((streams s).nReadPos+k) ((streams s).nReadPos+l))
  | .Rewind s n => (.rewound ((streams s).Rewind n).1,((streams s).Rewind n).2)
  | .Compact s => (.done,(streams s).Compact)
  | .append s b => (.done,(streams s).append (streams b))
  | .Serialize s t => (streams t).Serialize (streams s)

/-- The calls so far, the last one first. -/
inductive Run (allowed : (ι → CDataStream) → Op ι → Prop) (start : ι → CDataStream) : List (Op ι × Answer) → (ι → CDataStream) → Prop
  | start : Run allowed start [] start
  | call {trace : List (Op ι × Answer)} {streams : ι → CDataStream} (before : Run allowed start trace streams) (op : Op ι) (may : allowed streams op) :
    Run allowed start ((op,(call streams op).1) :: trace) (Function.update streams op.target (call streams op).2)

/-! ### Queues -/

/-- What the queues of unread bytes make of a call. -/
inductive QueueStep (queues : ι → Queue UInt8) : Op ι → Answer → Queue UInt8 → Prop
  | write (s : ι) (pch : List UInt8) : QueueStep queues (.write s pch) .done ((queues s).append pch)
  | read (s : ι) {nSize : Nat} (enough : nSize ≤ (queues s).items.length) :
    QueueStep queues (.read s nSize) (.bytes ((queues s).items.take nSize)) ((queues s).take nSize)
  | readPast (s : ι) {nSize : Nat} (few : (queues s).items.length < nSize) :
    QueueStep queues (.read s nSize) (.throws "CDataStream::read() : end of data") (queues s)
  | ignore (s : ι) {nSize : Nat} (enough : nSize ≤ (queues s).items.length) : QueueStep queues (.ignore s nSize) .done ((queues s).take nSize)
  | ignorePast (s : ι) {nSize : Nat} (few : (queues s).items.length < nSize) :
    QueueStep queues (.ignore s nSize) (.throws "CDataStream::ignore() : end of data") (queues s)
  | insert (s : ι) (k : Nat) (x : UInt8) : QueueStep queues (.insert s k x) (.iterator k) ((queues s).insert k [x])
  | insertCopies (s : ι) (k n : Nat) (x : UInt8) : QueueStep queues (.insertCopies s k n x) .done ((queues s).insert k (List.replicate n x))
  | insertRange (s : ι) (k : Nat) (range : List UInt8) : QueueStep queues (.insertRange s k range) .done ((queues s).insert k range)
  | erase (s : ι) (k : Nat) : QueueStep queues (.erase s k) (.iterator k) ((queues s).remove k (k+1))
  | eraseRange (s : ι) (k l : Nat) : QueueStep queues (.eraseRange s k l) (.iterator k) ((queues s).remove k l)
  | Rewind (s : ι) {n : Nat} {q : Queue UInt8} (back : Queue.PutsBack n (queues s) q) : QueueStep queues (.Rewind s n) (.rewound true) q
  | notRewind (s : ι) (n : Nat) : QueueStep queues (.Rewind s n) (.rewound false) (queues s)
  | Compact (s : ι) : QueueStep queues (.Compact s) .done (queues s)
  | append (s b : ι) : QueueStep queues (.append s b) .done ((queues s).append (queues b).items)
  | Serialize (s t : ι) : QueueStep queues (.Serialize s t) .done ((queues s).append (queues t).items)

inductive QueueRun (start : ι → Queue UInt8) : List (Op ι × Answer) → (ι → Queue UInt8) → Prop
  | start : QueueRun start [] start
  | call {trace : List (Op ι × Answer)} {queues : ι → Queue UInt8} {op : Op ι} {answer : Answer} {q : Queue UInt8}
    (before : QueueRun start trace queues) (step : QueueStep queues op answer q) :
    QueueRun start ((op,answer) :: trace) (Function.update queues op.target q)

omit [DecidableEq ι] in
/-- What is put back at once after it was read leaves the queue as it was. -/
theorem QueueStep.read_rewound {queues : ι → Queue UInt8} {s : ι} {nSize : Nat} {pch : List UInt8} {q q' : Queue UInt8}
    (read : QueueStep queues (.read s nSize) (.bytes pch) q) (back : Queue.PutsBack nSize q q') : q' = queues s := by
  cases read with
  | read _ enough => exact back.of_take enough

/-- The stream has the queue behind its position. -/
structure Holds (s : CDataStream) (q : Queue UInt8) : Prop where
  row : Row s.vch s.nReadPos q
  nReadPos : s.nReadPos < 2^32

variable {s : CDataStream} {q : Queue UInt8}

theorem Holds.unread_eq (holds : s.Holds q) : s.unread = q.items := holds.row.items

theorem Holds.size_eq (holds : s.Holds q) : s.size = q.items.length := by
  rw [size,holds.row.length,Nat.add_sub_cancel_left]

theorem Holds.empty_iff (holds : s.Holds q) : s.empty = true ↔ q.items = [] := by
  rw [empty,beq_iff_eq,holds.row.length,← List.length_eq_zero_iff]
  omega

theorem holds_write (holds : s.Holds q) (pch : List UInt8) : (s.write pch).Holds (q.append pch) := ⟨holds.row.append pch,holds.nReadPos⟩

theorem holds_append {b : CDataStream} {q' : Queue UInt8} (holds : s.Holds q) (other : b.Holds q') : (s.append b).Holds (q.append q'.items) := by
  rw [append,other.unread_eq]
  exact holds_write holds q'.items

/-- The position moves over what is taken; at the end the buffer may be emptied. -/
theorem holds_taken (holds : s.Holds q) {n : Nat} (enough : n ≤ q.items.length) (small : s.nReadPos+n < 2^32) :
    Holds {s with nReadPos := s.nReadPos+n} (q.take n) := ⟨holds.row.take enough,small⟩

theorem holds_clear (holds : s.Holds q) : s.clear.Holds (q.take q.items.length) := ⟨holds.row.clear,Nat.two_pow_pos 32⟩

theorem consume_enough (holds : s.Holds q) {nSize : Nat} (enough : nSize ≤ q.items.length) (small : s.nReadPos+nSize < 2^32) (message : String)
    (answer : Answer) : (s.consume nSize message answer).1 = answer ∧ (s.consume nSize message answer).2.Holds (q.take nSize) := by
  have whole := holds.row.length
  rw [consume,Nat.mod_eq_of_lt small]
  by_cases last : nSize = q.items.length
  · rw [if_pos (by omega),if_neg (by omega),last]
    exact ⟨rfl,holds_clear holds⟩
  · rw [if_neg (by omega)]
    exact ⟨rfl,holds_taken holds enough small⟩

theorem consume_past (holds : s.Holds q) {nSize : Nat} (few : q.items.length < nSize) (small : s.nReadPos+nSize < 2^32) (message : String)
    (answer : Answer) : (s.consume nSize message answer).1 = .throws message ∧ (s.consume nSize message answer).2.Holds q := by
  have whole := holds.row.length
  rw [consume,Nat.mod_eq_of_lt small,if_pos (by omega),if_pos (by omega)]
  exact ⟨rfl,holds.row,holds.nReadPos⟩

/-- A stream is read as the readers of bytes read its unread bytes. -/
theorem read_readData (holds : s.Holds q) {nSize : Nat} (small : s.nReadPos+nSize < 2^32) :
    (∃ pch rest, readData nSize s.unread = .ok (pch,rest) ∧ (s.read nSize).1 = .bytes pch ∧ (s.read nSize).2.unread = rest) ∨
      ∃ e, readData nSize s.unread = .error e ∧ (s.read nSize).1 = .throws e ∧ (s.read nSize).2.unread = s.unread := by
  have items := holds.unread_eq
  by_cases enough : nSize ≤ q.items.length
  · obtain ⟨answer,after⟩ := consume_enough holds enough small "CDataStream::read() : end of data" (.bytes (s.unread.take nSize))
    refine .inl ⟨s.unread.take nSize,s.unread.drop nSize,?_,answer,?_⟩
    · rw [readData,Codec.take,if_neg (by rw [items]; omega)]
    · rw [read,after.unread_eq,items,Queue.take]
  · have few := Nat.not_le.mp enough
    obtain ⟨answer,after⟩ := consume_past holds few small "CDataStream::read() : end of data" (.bytes (s.unread.take nSize))
    refine .inr ⟨_,?_,answer,?_⟩
    · rw [readData,Codec.take,if_pos (by rw [items]; exact few)]
    · rw [read,after.unread_eq,items]

theorem holds_vectorInsert (holds : s.Holds q) {k : Nat} (inside : k ≤ s.size) (xs : List UInt8) :
    (s.vectorInsert (s.nReadPos+k) xs).Holds (q.insert k xs) := by
  rw [holds.size_eq] at inside
  exact ⟨holds.row.insert inside xs,holds.nReadPos⟩

theorem holds_insertRange (holds : s.Holds q) {k : Nat} (inside : k ≤ s.size) {range : List UInt8}
    (small : k = 0 → range.length%2^32 ≤ s.nReadPos → range.length < 2^32) : (s.insertRange (s.nReadPos+k) range).Holds (q.insert k range) := by
  rw [insertRange]
  split
  next room =>
    obtain ⟨front,fits⟩ := room
    have zero : k = 0 := by omega
    have short := small zero fits
    rw [Nat.mod_eq_of_lt short] at fits ⊢
    have back : s.nReadPos-range.length+range.length = s.nReadPos := Nat.sub_add_cancel fits
    have bound := holds.nReadPos
    rw [zero]
    refine ⟨?_,by show s.nReadPos-range.length < 2^32; omega⟩
    show Row (s.vch.take (s.nReadPos-range.length) ++ range ++ s.vch.drop (s.nReadPos-range.length+range.length)) _ _
    rw [back]
    exact holds.row.overwrite fits
  · exact holds_vectorInsert holds inside range

theorem erase_holds (holds : s.Holds q) {k : Nat} (inside : k < s.size) (small : k = 0 → s.nReadPos+1 < 2^32) :
    (pointed (s.erase (s.nReadPos+k))).1 = .iterator k ∧ (pointed (s.erase (s.nReadPos+k))).2.Holds (q.remove k (k+1)) := by
  have whole := holds.row.length
  rw [holds.size_eq] at inside
  by_cases front : k = 0
  · rw [front,erase,if_pos (Nat.add_zero _),Nat.mod_eq_of_lt (small front)]
    by_cases last : q.items.length = 1
    · rw [if_pos (by omega)]
      refine ⟨rfl,?_⟩
      have all := holds_clear holds
      rwa [last] at all
    · rw [if_neg (by omega)]
      exact ⟨congrArg Answer.iterator (Nat.sub_self _),holds_taken holds (by omega) (small front)⟩
  · rw [erase,if_neg (by omega)]
    exact ⟨congrArg Answer.iterator (Nat.add_sub_cancel_left ..),holds.row.remove front inside.le (k+1),holds.nReadPos⟩

theorem eraseRange_holds (holds : s.Holds q) {k l : Nat} (order : k ≤ l) (inside : l ≤ s.size)
    (small : k = 0 → l < s.size → s.nReadPos+l < 2^32) :
    (pointed (s.eraseRange (s.nReadPos+k) (s.nReadPos+l))).1 = .iterator k ∧
      (pointed (s.eraseRange (s.nReadPos+k) (s.nReadPos+l))).2.Holds (q.remove k l) := by
  have whole := holds.row.length
  rw [holds.size_eq] at inside small
  by_cases front : k = 0
  · rw [front,eraseRange,if_pos (Nat.add_zero _)]
    by_cases last : l = q.items.length
    · rw [if_pos (by omega),last]
      exact ⟨rfl,holds_clear holds⟩
    · have fits := small front (by omega)
      rw [if_neg (by omega),Nat.mod_eq_of_lt fits]
      exact ⟨congrArg Answer.iterator (Nat.sub_self _),holds_taken holds inside fits⟩
  · rw [eraseRange,if_neg (by omega)]
    exact ⟨congrArg Answer.iterator (Nat.add_sub_cancel_left ..),holds.row.remove front (by omega) l,holds.nReadPos⟩

theorem holds_Compact (holds : s.Holds q) : s.Compact.Holds q := ⟨holds.row.compact,Nat.two_pow_pos 32⟩

/-- What is put into another stream is all of the buffer, as long as its size is an `int`. -/
theorem Serialize_small {t : CDataStream} (small : t.vch.length < 2^31) (s : CDataStream) : t.Serialize s = (.done,s.write t.vch) := by
  rw [Serialize]
  split
  next nothing => rw [List.isEmpty_iff.mp nothing,write,List.append_nil]
  · have size : intOf (t.vch.length%2^32) = t.vch.length := by
      rw [intOf,Nat.mod_eq_of_lt (by omega),if_pos small]
    rw [size,if_neg (by omega),Int.toNat_natCast,List.take_length]

/-- Another stream gets the unread bytes exactly if nothing of the buffer was read and its
    size is an `int`. -/
theorem Serialize_iff {t : CDataStream} (holds : t.Holds q) (s : CDataStream) :
    t.Serialize s = (.done,s.append t) ↔ t.nReadPos = 0 ∧ t.vch.length < 2^31 := by
  have inside := holds.row.inside
  have bound := holds.nReadPos
  constructor
  · intro same
    by_cases small : t.vch.length < 2^31
    · rw [Serialize_small small,append,unread] at same
      have bytes := congrArg (fun result : Answer × CDataStream => result.2.vch.length) same
      simp only [write,List.length_append,List.length_drop] at bytes
      exact ⟨by omega,small⟩
    · rw [Serialize,if_neg (by rw [List.isEmpty_iff,← List.length_eq_zero_iff]; omega)] at same
      by_cases negative : intOf (t.vch.length%2^32) < 0
      · rw [if_pos negative] at same
        exact absurd (congrArg Prod.fst same) (by simp)
      · rw [if_neg negative,append,unread] at same
        have bytes := congrArg (fun result : Answer × CDataStream => result.2.vch.length) same
        simp only [write,List.length_append,List.length_drop,List.length_take] at bytes
        unfold intOf at negative bytes
        split at bytes <;> omega
  · rintro ⟨start,small⟩
    rw [Serialize_small small,append,unread,start,List.drop_zero,write]

theorem Rewind_holds (holds : s.Holds q) (n : Nat) :
    ((s.Rewind n).1 = false ∧ (s.Rewind n).2.Holds q) ∨
      ((s.Rewind n).1 = true ∧ ∃ q', Queue.PutsBack n q q' ∧ (s.Rewind n).2.Holds q') := by
  rw [Rewind]
  by_cases room : n > s.nReadPos
  · rw [if_pos room]
    exact .inl ⟨rfl,holds⟩
  · rw [if_neg room]
    obtain ⟨q',back,row⟩ := holds.row.putBack (Nat.not_lt.mp room)
    exact .inr ⟨rfl,q',back,row,Nat.lt_of_le_of_lt (Nat.sub_le ..) holds.nReadPos⟩

omit [DecidableEq ι] in
/-- A call on streams that have their queues does and answers what it does on the queues. -/
theorem call_queueStep {streams : ι → CDataStream} {queues : ι → Queue UInt8} (holds : ∀ i, (streams i).Holds (queues i)) {op : Op ι}
    (valid : op.Valid streams) (plain : op.Plain streams) :
    ∃ q, QueueStep queues op (call streams op).1 q ∧ (call streams op).2.Holds q := by
  cases op with
  | write s pch => exact ⟨_,.write s pch,holds_write (holds s) pch⟩
  | read s nSize =>
    by_cases enough : nSize ≤ (queues s).items.length
    · obtain ⟨answer,after⟩ := consume_enough (holds s) enough plain "CDataStream::read() : end of data" (.bytes ((streams s).unread.take nSize))
      refine ⟨_,?_,after⟩
      rw [call,read,answer,(holds s).unread_eq]
      exact .read s enough
    · have few := Nat.not_le.mp enough
      obtain ⟨answer,after⟩ := consume_past (holds s) few plain "CDataStream::read() : end of data" (.bytes ((streams s).unread.take nSize))
      refine ⟨_,?_,after⟩
      rw [call,read,answer]
      exact .readPast s few
  | ignore s nSize =>
    by_cases enough : nSize ≤ (queues s).items.length
    · obtain ⟨answer,after⟩ := consume_enough (holds s) enough plain "CDataStream::ignore() : end of data" .done
      refine ⟨_,?_,after⟩
      rw [call,ignore,answer]
      exact .ignore s enough
    · have few := Nat.not_le.mp enough
      obtain ⟨answer,after⟩ := consume_past (holds s) few plain "CDataStream::ignore() : end of data" .done
      refine ⟨_,?_,after⟩
      rw [call,ignore,answer]
      exact .ignorePast s few
  | insert s k x =>
    have place : (call streams (.insert s k x)).1 = .iterator k := congrArg Answer.iterator (Nat.add_sub_cancel_left ..)
    exact ⟨_,place ▸ .insert s k x,holds_vectorInsert (holds s) valid [x]⟩
  | insertCopies s k n x => exact ⟨_,.insertCopies s k n x,holds_vectorInsert (holds s) valid (List.replicate n x)⟩
  | insertRange s k range => exact ⟨_,.insertRange s k range,holds_insertRange (holds s) valid plain⟩
  | erase s k =>
    obtain ⟨answer,after⟩ := erase_holds (holds s) valid plain
    refine ⟨_,?_,after⟩
    rw [call,answer]
    exact .erase s k
  | eraseRange s k l =>
    obtain ⟨answer,after⟩ := eraseRange_holds (holds s) valid.1 valid.2 plain
    refine ⟨_,?_,after⟩
    rw [call,answer]
    exact .eraseRange s k l
  | Rewind s n =>
    rcases Rewind_holds (holds s) n with ⟨answer,after⟩ | ⟨answer,q,back,after⟩
    · refine ⟨_,?_,after⟩
      rw [call,answer]
      exact .notRewind s n
    · refine ⟨q,?_,after⟩
      rw [call,answer]
      exact .Rewind s back
  | Compact s => exact ⟨_,.Compact s,holds_Compact (holds s)⟩
  | append s b => exact ⟨_,.append s b,holds_append (holds s) (holds b)⟩
  | Serialize s t =>
    have done := (Serialize_iff (holds t) (streams s)).mpr plain
    refine ⟨(queues s).append (queues t).items,?_,?_⟩
    · rw [call,done]
      exact .Serialize s t
    · rw [call,done]
      exact holds_append (holds s) (holds t)

/-- The queues of a run answer what the streams answer. -/
theorem run_queueRun {start : ι → CDataStream} {queues : ι → Queue UInt8} (holds : ∀ i, (start i).Holds (queues i)) {trace : List (Op ι × Answer)}
    {streams : ι → CDataStream} (run : Run (fun streams op => op.Valid streams ∧ op.Plain streams) start trace streams) :
    ∃ queues', QueueRun queues trace queues' ∧ ∀ i, (streams i).Holds (queues' i) := by
  induction run with
  | start => exact ⟨queues,.start,holds⟩
  | call before op may ih =>
    obtain ⟨queues',moved,each⟩ := ih
    obtain ⟨q,step,after⟩ := call_queueStep each may.1 may.2
    refine ⟨_,moved.call step,fun i => ?_⟩
    by_cases target : i = op.target
    · rw [target,Function.update_self,Function.update_self]
      exact after
    · rw [Function.update_of_ne target,Function.update_of_ne target]
      exact each i

theorem holds_start (vch : List UInt8) : Holds ⟨vch,0,false⟩ ⟨[],vch⟩ := ⟨Row.start vch,Nat.two_pow_pos 32⟩

/-- In a run in which a stream goes into another with nothing read from it, and in which
    numbers stay in 32 bits, the streams answer as the queues of their unread bytes do; and
    in every state reached, a stream that goes into another is appended to it exactly if
    nothing of its buffer was read and the size is an `int`. -/
theorem behaves_as_queues (start : ι → List UInt8) {trace : List (Op ι × Answer)} {streams : ι → CDataStream}
    (run : Run (fun streams op => op.Valid streams ∧ op.Plain streams) (fun i => ⟨start i,0,false⟩) trace streams) :
    (∃ queues, QueueRun (fun i => ⟨[],start i⟩) trace queues ∧ ∀ i, (streams i).unread = (queues i).items ∧
      (streams i).size = (queues i).items.length ∧ ((streams i).empty = true ↔ (queues i).items = [])) ∧
    ∀ s t, (streams t).Serialize (streams s) = (.done,(streams s).append (streams t)) ↔
      (streams t).nReadPos = 0 ∧ (streams t).vch.length < 2^31 := by
  obtain ⟨queues,moved,holds⟩ := run_queueRun (fun i => holds_start (start i)) run
  refine ⟨⟨queues,moved,fun i => ⟨(holds i).unread_eq,(holds i).size_eq,(holds i).empty_iff⟩⟩,fun s t => ?_⟩
  exact Serialize_iff (holds t) (streams s)

/-- A stream with bytes, and one without. -/
private def filled : Bool → List UInt8
  | false => [1,2,3]
  | true => []

/-- Two bytes are read and one is put back before the stream goes into the other. -/
theorem behaves_as_queues_sample :
    ∃ (trace : List (Op Bool × Answer)) (streams : Bool → CDataStream),
      trace.map Prod.snd = [.done,.done,.rewound true,.bytes [1,2]] ∧ (streams true).unread = [2,3] ∧
      (∃ queues, QueueRun (fun i => ⟨[],filled i⟩) trace queues ∧ ∀ i, (streams i).unread = (queues i).items ∧
        (streams i).size = (queues i).items.length ∧ ((streams i).empty = true ↔ (queues i).items = [])) ∧
      ∀ s t, (streams t).Serialize (streams s) = (.done,(streams s).append (streams t)) ↔
        (streams t).nReadPos = 0 ∧ (streams t).vch.length < 2^31 :=
  ⟨_,_,by decide,by decide,behaves_as_queues filled ((((Run.start.call (.read false 2) ⟨trivial,(by decide : 0+2 < 2^32)⟩).call
    (.Rewind false 1) ⟨trivial,trivial⟩).call (.Compact false) ⟨trivial,trivial⟩).call (.Serialize true false)
      ⟨(by decide : true ≠ false),rfl,(by decide : [(2 : UInt8),3].length < 2^31)⟩)⟩

/-- A byte that was read goes into the other stream. -/
theorem read_byte_serialized :
    ¬ ∀ (start : Bool → List UInt8) (trace : List (Op Bool × Answer)) (streams : Bool → CDataStream),
      Run (fun streams op => op.Valid streams) (fun i => ⟨start i,0,false⟩) trace streams →
      ∃ queues, QueueRun (fun i => ⟨[],start i⟩) trace queues ∧ ∀ i, (streams i).unread = (queues i).items := by
  intro all
  have run : Run (fun streams op => op.Valid streams) (fun i => ⟨filled i,0,false⟩) _ _ :=
    (Run.start.call (.ignore false 1) trivial).call (.Serialize true false) (by decide : true ≠ false)
  obtain ⟨queues,moved,same⟩ := all filled _ _ run
  have written := same true
  cases moved with
  | call before step =>
    cases step
    cases before with
    | call before step =>
      cases before
      cases step
      exact absurd written (by decide)

end CDataStream

end Tetra
