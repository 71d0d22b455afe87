import Mathlib
import Tetra.Framing
import Tetra.NetMessage

/-!
Messages survive any way in which the socket takes their bytes and any way in which these
arrive: the sender's queue and the bytes on the wire are the frames of what was written,
and the receiver holds the same messages, with at most one unfinished at the end.
-/
namespace Tetra
open Framing

/-- A command with the bytes of its arguments. -/
structure Message where
  pszCommand : List UInt8
  arguments : List UInt8
deriving DecidableEq

section
variable (net : NetRules)

namespace Message

def header (m : Message) : CMessageHeader := ⟨net.pchMessageStart,strncpy m.pszCommand,m.arguments.length,net.Hash m.arguments%2^32⟩
def frame (m : Message) : List UInt8 := (m.header net).bytes ++ m.arguments

/-- The message as it stands in `vRecvMsg`. -/
def received (m : Message) : CNetMessage :=
  {in_data := true,hdrbuf := [],hdr := m.header net,nHdrPos := 24,vRecv := m.arguments,nDataPos := m.arguments.length}

/-- Its header has come, and these bytes of its arguments. -/
def underway (m : Message) (data : List UInt8) : CNetMessage :=
  {m.received net with vRecv := resize data m.arguments.length,nDataPos := data.length}

end Message

/-- A message of which these bytes have come. -/
def reading (part : List UInt8) : CNetMessage :=
  match CMessageHeader.read part with
  | none => {hdrbuf := resize part 24,hdr := CMessageHeader.unread net,nHdrPos := part.length}
  | some hdr => {in_data := true,hdrbuf := [],hdr := hdr,nHdrPos := 24,vRecv := resize (part.drop 24) hdr.nMessageSize,nDataPos := part.length-24}

end

section
variable {net : NetRules}

/-! ### Bytes -/

theorem uintOf_uintBytes {n : Nat} (low : n < 2^32) : uintOf (uintBytes n) = n := by
  simp only [uintOf,uintBytes,UInt8.toNat_ofNat']
  omega

theorem length_resize (buf : List UInt8) (n : Nat) : (resize buf n).length = n := by
  simp [resize]
  omega

theorem resize_short {buf : List UInt8} {n : Nat} (short : buf.length ≤ n) : resize buf n = buf ++ List.replicate (n-buf.length) 0 := by
  rw [resize,List.take_of_length_le short]

theorem overwrite_middle (a b c d : List UInt8) {pos : Nat} (before : pos = a.length) (sized : b.length = c.length) :
    overwrite (a ++ b ++ d) pos c = a ++ c ++ d := by
  subst before
  rw [overwrite,List.append_assoc a b d,List.take_left,← sized,← List.append_assoc a b d,← List.length_append,List.drop_left]

/-- Bytes at the end of what has come, in a buffer with room for them. -/
theorem overwrite_resize {part more : List UInt8} {n : Nat} (fits : part.length+more.length ≤ n) :
    overwrite (resize part n) part.length more = resize (part ++ more) n := by
  have gap : n-part.length = more.length+(n-(part ++ more).length) := by
    rw [List.length_append]
    omega
  rw [resize_short (by omega),resize_short (by rw [List.length_append]; omega),gap,List.replicate_add,← List.append_assoc]
  exact overwrite_middle part _ more _ rfl (by simp)

/-- A header that fits its 24 bytes. -/
structure CMessageHeader.Sized (hdr : CMessageHeader) : Prop where
  start : hdr.pchMessageStart.length = 4
  command : hdr.pchCommand.length = COMMAND_SIZE
  size : hdr.nMessageSize < 2^32
  checksum : hdr.nChecksum < 2^32

theorem CMessageHeader.length_bytes {hdr : CMessageHeader} (sized : hdr.Sized) : hdr.bytes.length = 24 := by
  simp [bytes,sized.start,sized.command,uintBytes,COMMAND_SIZE]

theorem CMessageHeader.read_bytes {hdr : CMessageHeader} (sized : hdr.Sized) (more : List UInt8) : read (hdr.bytes ++ more) = some hdr := by
  obtain ⟨start,command,size,checksum⟩ := hdr
  have startSize : start.length = 4 := sized.start
  have commandSize : command.length = 12 := sized.command
  have long : ¬((⟨start,command,size,checksum⟩ : CMessageHeader).bytes ++ more).length < HEADER_SIZE := by
    rw [List.length_append,length_bytes sized,HEADER_SIZE]
    omega
  rw [read,if_neg long]
  have parts : (⟨start,command,size,checksum⟩ : CMessageHeader).bytes ++ more =
      start ++ (command ++ (uintBytes size ++ (uintBytes checksum ++ more))) := by
    simp [bytes]
  have first : (start ++ (command ++ (uintBytes size ++ (uintBytes checksum ++ more)))).drop 4 =
      command ++ (uintBytes size ++ (uintBytes checksum ++ more)) := by
    rw [← startSize,List.drop_left]
  have second : (start ++ (command ++ (uintBytes size ++ (uintBytes checksum ++ more)))).drop 16 =
      uintBytes size ++ (uintBytes checksum ++ more) := by
    rw [show 16 = 4+12 by rfl,← List.drop_drop,first,← commandSize,List.drop_left]
  have third : (start ++ (command ++ (uintBytes size ++ (uintBytes checksum ++ more)))).drop 20 = uintBytes checksum ++ more := by
    rw [show 20 = 16+4 by rfl,← List.drop_drop,second]
    rfl
  have startBytes : (start ++ (command ++ (uintBytes size ++ (uintBytes checksum ++ more)))).take 4 = start := by
    rw [← startSize,List.take_left]
  have commandBytes : (command ++ (uintBytes size ++ (uintBytes checksum ++ more))).take 12 = command := by
    rw [← commandSize,List.take_left]
  have sizeBytes : (uintBytes size ++ (uintBytes checksum ++ more)).take 4 = uintBytes size := rfl
  have checksumBytes : (uintBytes checksum ++ more).take 4 = uintBytes checksum := rfl
  rw [parts,first,second,third,startBytes,commandBytes,sizeBytes,checksumBytes,uintOf_uintBytes sized.size,uintOf_uintBytes sized.checksum]

/-! ### Frames -/

variable {m : Message}

theorem Message.sized (fits : m.arguments.length ≤ MAX_SIZE) : (m.header net).Sized := by
  have small : MAX_SIZE < 2^32 := by decide
  exact ⟨net.size_start,length_resize _ _,Nat.lt_of_le_of_lt fits small,Nat.mod_lt _ (by decide)⟩

theorem Message.length_frame (fits : m.arguments.length ≤ MAX_SIZE) : (m.frame net).length = 24+m.arguments.length := by
  rw [frame,List.length_append,CMessageHeader.length_bytes (m.sized fits)]

/-- Where a part of a frame stops: in the header or in the arguments. -/
theorem Message.part_cases (fits : m.arguments.length ≤ MAX_SIZE) {part : List UInt8} (isPrefix : part <+: m.frame net) :
    (part.length < 24 ∧ reading net part = {hdrbuf := resize part 24,hdr := CMessageHeader.unread net,nHdrPos := part.length}) ∨
    ∃ data, part = (m.header net).bytes ++ data ∧ data <+: m.arguments ∧ reading net part = m.underway net data := by
  have size := CMessageHeader.length_bytes (@Message.sized net m fits)
  by_cases short : part.length < 24
  · left
    refine ⟨short,?_⟩
    rw [reading,CMessageHeader.read,if_pos (show part.length < CMessageHeader.HEADER_SIZE from short)]
  · right
    obtain ⟨rest,whole⟩ := isPrefix
    have headerPrefix : (m.header net).bytes <+: part :=
      List.prefix_of_prefix_length_le (List.prefix_append _ m.arguments) (show part <+: m.frame net from ⟨rest,whole⟩) (by omega)
    obtain ⟨data,rfl⟩ := headerPrefix
    refine ⟨data,rfl,?_,?_⟩
    · rw [frame,List.append_assoc,List.append_cancel_left_eq] at whole
      exact ⟨rest,whole⟩
    · rw [reading,CMessageHeader.read_bytes (m.sized fits)]
      dsimp only
      rw [← size,List.drop_left,List.length_append,Nat.add_sub_cancel_left,size]
      rfl

theorem reading_frame (fits : m.arguments.length ≤ MAX_SIZE) : reading net (m.frame net) = m.received net := by
  have size := CMessageHeader.length_bytes (@Message.sized net m fits)
  have all : resize m.arguments m.arguments.length = m.arguments := by simp [resize]
  rw [reading,Message.frame,CMessageHeader.read_bytes (m.sized fits)]
  dsimp only
  rw [← size,List.drop_left,List.length_append,Nat.add_sub_cancel_left,size]
  show m.underway net m.arguments = m.received net
  rw [Message.underway,all]
  rfl

theorem complete_received (m : Message) : (m.received net).complete = true := by
  simp [CNetMessage.complete,Message.received,Message.header]

theorem reading_incomplete (fits : m.arguments.length ≤ MAX_SIZE) {part : List UInt8} (isPrefix : part <+: m.frame net)
    (strict : part ≠ m.frame net) : (reading net part).complete = false := by
  rcases m.part_cases fits isPrefix with ⟨_,header⟩ | ⟨data,rfl,inside,state⟩
  · rw [header]
    rfl
  · rw [state]
    have shorter : data.length ≠ m.arguments.length := by
      intro same
      rw [inside.eq_of_length same] at strict
      exact strict rfl
    simpa [CNetMessage.complete,Message.underway,Message.received,Message.header] using Ne.symm shorter

/-! ### The receiver -/

/-- The bytes that one turn takes: the rest of the header, or of the arguments. -/
def bite (m : Message) (part pch : List UInt8) : Nat :=
  if part.length < 24 then min (24-part.length) pch.length else min (24+m.arguments.length-part.length) pch.length

theorem bite_le (m : Message) (part pch : List UInt8) : bite m part pch ≤ 24+m.arguments.length-part.length ∧ bite m part pch ≤ pch.length := by
  unfold bite
  split <;> omega

theorem bite_pos (fits : m.arguments.length ≤ MAX_SIZE) {part pch : List UInt8} (isPrefix : part <+: m.frame net) (strict : part ≠ m.frame net)
    (some' : pch.length > 0) : bite m part pch > 0 := by
  have size := @Message.length_frame net m fits
  have shorter : part.length < 24+m.arguments.length := by
    have le := isPrefix.length_le
    have ne : part.length ≠ (m.frame net).length := fun same => strict (isPrefix.eq_of_length same)
    omega
  unfold bite
  split <;> omega

theorem readHeader_part (fits : m.arguments.length ≤ MAX_SIZE) {part pch : List UInt8} (short : part.length < 24)
    (isPrefix : part ++ pch.take (bite m part pch) <+: m.frame net)
    (state : reading net part = {hdrbuf := resize part 24,hdr := CMessageHeader.unread net,nHdrPos := part.length}) :
    (reading net part).readHeader pch = ((bite m part pch : Int),reading net (part ++ pch.take (bite m part pch))) := by
  have size := CMessageHeader.length_bytes (@Message.sized net m fits)
  obtain ⟨_,low⟩ := bite_le m part pch
  have count : min (24-part.length) pch.length = bite m part pch := by rw [bite,if_pos short]
  have taken : (pch.take (bite m part pch)).length = bite m part pch := by rw [List.length_take,Nat.min_eq_left low]
  have long : (part ++ pch.take (bite m part pch)).length = part.length+bite m part pch := by rw [List.length_append,taken]
  have room : part.length+bite m part pch ≤ 24 := by omega
  rw [state,CNetMessage.readHeader]
  dsimp only
  rw [count,overwrite_resize (by rw [taken]; exact room)]
  split
  next unfinished =>
    rcases m.part_cases fits isPrefix with ⟨_,next⟩ | ⟨data,whole,_,_⟩
    · rw [next,long]
    · have := congrArg List.length whole
      rw [long,List.length_append,size] at this
      omega
  next finished =>
    rcases m.part_cases fits isPrefix with ⟨still,_⟩ | ⟨data,whole,_,next⟩
    · omega
    · obtain rfl : data = [] := by
        have := congrArg List.length whole
        rw [long,List.length_append,size] at this
        exact List.length_eq_zero_iff.mp (by omega)
      have full : resize (part ++ pch.take (bite m part pch)) 24 = (m.header net).bytes := by
        rw [whole,List.append_nil,resize_short (by omega),size]
        simp
      have read : CMessageHeader.read (m.header net).bytes = some (m.header net) := by
        have := CMessageHeader.read_bytes (@Message.sized net m fits) []
        rwa [List.append_nil] at this
      rw [full,read]
      dsimp only
      rw [if_neg (show ¬(m.header net).nMessageSize > MAX_SIZE from Nat.not_lt.mpr fits),next,← size,List.drop_length]
      have position : part.length+bite m part pch = (m.header net).bytes.length := by omega
      rw [position,size]
      rfl

theorem readData_part {part pch data : List UInt8} (fits : m.arguments.length ≤ MAX_SIZE) (parts : part = (m.header net).bytes ++ data)
    (inside : data <+: m.arguments) (isPrefix : part ++ pch.take (bite m part pch) <+: m.frame net)
    (state : reading net part = m.underway net data) :
    (reading net part).readData pch = ((bite m part pch : Int),reading net (part ++ pch.take (bite m part pch))) := by
  have size := CMessageHeader.length_bytes (@Message.sized net m fits)
  have long : part.length = 24+data.length := by rw [parts,List.length_append,size]
  obtain ⟨_,low⟩ := bite_le m part pch
  have count : min (m.arguments.length-data.length) pch.length = bite m part pch := by
    rw [bite,if_neg (by omega)]
    omega
  have taken : (pch.take (bite m part pch)).length = bite m part pch := by rw [List.length_take,Nat.min_eq_left low]
  have room : data.length+bite m part pch ≤ m.arguments.length := by
    have := inside.length_le
    omega
  have next : reading net (part ++ pch.take (bite m part pch)) = m.underway net (data ++ pch.take (bite m part pch)) := by
    rcases m.part_cases fits isPrefix with ⟨short,_⟩ | ⟨more,whole,_,next⟩
    · rw [List.length_append] at short
      omega
    · rw [next]
      generalize pch.take (bite m part pch) = more at whole ⊢
      rw [parts,List.append_assoc,List.append_cancel_left_eq] at whole
      rw [whole]
  have buffer := @overwrite_resize data (pch.take (bite m part pch)) m.arguments.length (by rw [taken]; exact room)
  have position : (data ++ pch.take (bite m part pch)).length = data.length+bite m part pch := by rw [List.length_append,taken]
  rw [state,next,CNetMessage.readData]
  simp only [Message.underway,Message.received,Message.header,count,buffer,position]

/-- The messages that a part of the stream makes: the whole ones, and the one that is
    unfinished. -/
structure Reads (net : NetRules) (written : List Message) (stream : List UInt8) (msgs : List CNetMessage) (done rest : List Message)
    (part : List UInt8) : Prop where
  written_eq : written = done ++ rest
  cut : Cut (written.map (Message.frame net)) (done.map (Message.frame net)) (rest.map (Message.frame net)) stream part
  msgs_eq : msgs = done.map (Message.received net) ++ if part = [] then [] else [reading net part]

theorem frame_filled (m : Message) : m.frame net ≠ [] := by
  intro empty
  have := congrArg List.length empty
  simp [Message.frame,CMessageHeader.bytes,uintBytes] at this

theorem frames_filled (written : List Message) : ∀ frame ∈ written.map (Message.frame net), frame ≠ [] := by
  intro frame member
  obtain ⟨m,_,rfl⟩ := List.mem_map.mp member
  exact frame_filled m

variable {written done rest : List Message} {stream part : List UInt8} {msgs : List CNetMessage}

/-- The message at the back, a new one where the last is complete. -/
theorem Reads.back (reads : Reads net written stream msgs done rest part)
    (incomplete : part ≠ [] → (reading net part).complete = false) :
    (if (msgs.getLast?.map CNetMessage.complete).getD true then msgs ++ [{hdr := CMessageHeader.unread net}] else msgs) =
      done.map (Message.received net) ++ [reading net part] := by
  rw [reads.msgs_eq]
  by_cases started : part = []
  · have fresh : reading net [] = {hdr := CMessageHeader.unread net} := rfl
    rw [if_pos started,List.append_nil,started,fresh,if_pos]
    rw [List.getLast?_map]
    cases done.getLast? with
    | none => rfl
    | some m => exact complete_received m
  · rw [if_neg started,if_neg]
    rw [List.getLast?_append]
    simp [incomplete started]

/-- The turn of the loop that reads on in a message. -/
theorem turn_part {m : Message} (fits : m.arguments.length ≤ MAX_SIZE) {part pch : List UInt8}
    (isPrefix : part ++ pch.take (bite m part pch) <+: m.frame net) :
    (if !(reading net part).in_data then (reading net part).readHeader pch else (reading net part).readData pch) =
      ((bite m part pch : Int),reading net (part ++ pch.take (bite m part pch))) := by
  have before : part <+: m.frame net := (List.prefix_append ..).trans isPrefix
  rcases m.part_cases fits before with ⟨short,state⟩ | ⟨data,parts,inside,state⟩
  · have header : (!(reading net part).in_data) = true := by rw [state]; rfl
    rw [if_pos header]
    exact readHeader_part fits short isPrefix state
  · have body : (!(reading net part).in_data) = false := by rw [state]; rfl
    rw [body,if_neg Bool.false_ne_true]
    exact readData_part fits parts inside isPrefix state

/-- The induction is on the fuel; every turn reads at least one byte. -/
theorem receive_reads (fits : ∀ m ∈ written, m.arguments.length ≤ MAX_SIZE) {fuel : Nat} {node : CNode} {pch : List UInt8}
    (enough : pch.length ≤ fuel) (reads : Reads net written stream node.vRecvMsg done rest part)
    (within : stream ++ pch <+: (written.map (Message.frame net)).flatten) :
    ∃ msgs done rest part, node.receive net fuel pch = (true,{node with vRecvMsg := msgs}) ∧
      Reads net written (stream ++ pch) msgs done rest part := by
  have idle : ∀ {node : CNode} {stream done rest part}, Reads net written stream node.vRecvMsg done rest part →
      ∃ msgs done rest part, ((true,node) : Bool × CNode) = (true,{node with vRecvMsg := msgs}) ∧
        Reads net written (stream ++ []) msgs done rest part := by
    intro node stream done rest part reads
    rw [List.append_nil]
    exact ⟨node.vRecvMsg,done,rest,part,rfl,reads⟩
  induction fuel generalizing node pch stream done rest part with
  | zero =>
    obtain rfl : pch = [] := List.length_eq_zero_iff.mp (by omega)
    exact idle reads
  | succ fuel ih =>
    unfold CNode.receive
    by_cases some' : pch.length > 0
    · rw [if_pos some']
      obtain ⟨frame,later,first,isPrefix,strict,pieces⟩ := reads.cut.next (List.ne_nil_of_length_pos some') within
      obtain ⟨m,rest',rfl,rfl,rfl⟩ : ∃ m rest', rest = m :: rest' ∧ m.frame net = frame ∧ rest'.map (Message.frame net) = later := by
        cases rest with
        | nil => contradiction
        | cons m rest' => exact ⟨m,rest',rfl,(List.cons.inj first).1,(List.cons.inj first).2⟩
      have small : m.arguments.length ≤ MAX_SIZE := fits m (by rw [reads.written_eq]; simp)
      have takes := pieces (bite m part pch) (by rw [m.length_frame small]; exact (bite_le m part pch).1)
      have progress := bite_pos small isPrefix strict some'
      dsimp only
      rw [reads.back fun _ => reading_incomplete small isPrefix strict]
      simp only [List.getLast?_append,List.getLast?_singleton,Option.some_or,List.dropLast_concat]
      rw [turn_part small takes]
      dsimp only
      rw [if_neg (by omega),Int.toNat_natCast]
      have stream_eq : stream ++ pch.take (bite m part pch) ++ pch.drop (bite m part pch) = stream ++ pch := by
        rw [List.append_assoc,List.take_append_drop]
      have shorter : (pch.drop (bite m part pch)).length ≤ fuel := by
        rw [List.length_drop]
        omega
      have cut := reads.cut
      rw [List.map_cons] at cut
      by_cases whole : part ++ pch.take (bite m part pch) = m.frame net
      · have cut' := cut.finish whole (frames_filled rest')
        have next : Reads net written (stream ++ pch.take (bite m part pch))
            (done.map (Message.received net) ++ [reading net (part ++ pch.take (bite m part pch))]) (done ++ [m]) rest' [] := by
          refine ⟨by rw [reads.written_eq,List.append_assoc]; rfl,?_,?_⟩
          · rw [List.map_append]
            exact cut'
          · rw [whole,reading_frame small]
            simp
        have last := @ih _ _ _ _ {node with vRecvMsg := done.map (Message.received net) ++ [reading net (part ++ pch.take (bite m part pch))]}
          (pch.drop (bite m part pch)) shorter next (by rw [stream_eq]; exact within)
        rw [stream_eq] at last
        exact last
      · have cut' := cut.grow takes whole
        have next : Reads net written (stream ++ pch.take (bite m part pch))
            (done.map (Message.received net) ++ [reading net (part ++ pch.take (bite m part pch))]) done (m :: rest')
            (part ++ pch.take (bite m part pch)) := by
          refine ⟨reads.written_eq,cut',?_⟩
          rw [if_neg]
          intro empty
          have := congrArg List.length empty
          rw [List.length_append,List.length_take,List.length_nil] at this
          omega
        have last := @ih _ _ _ _ {node with vRecvMsg := done.map (Message.received net) ++ [reading net (part ++ pch.take (bite m part pch))]}
          (pch.drop (bite m part pch)) shorter next (by rw [stream_eq]; exact within)
        rw [stream_eq] at last
        exact last
    · rw [if_neg some']
      obtain rfl : pch = [] := List.length_eq_zero_iff.mp (by omega)
      exact idle reads

/-! ### The sender -/

/-- The accounts of a queue: its size, and how far its first entry was sent. -/
structure Queued (node : CNode) (queue : List CSerializeData) : Prop where
  size : node.nSendSize = (queue.map List.length).sum
  offset : (queue = [] ∧ node.nSendOffset = 0) ∨ ∃ data later, queue = data :: later ∧ node.nSendOffset < data.length
  filled : ∀ data ∈ queue, data ≠ []

theorem offset_of_filled {queue : List CSerializeData} (filled : ∀ data ∈ queue, data ≠ []) :
    (queue = [] ∧ 0 = 0) ∨ ∃ data later, queue = data :: later ∧ 0 < data.length := by
  cases queue with
  | nil => exact .inl ⟨rfl,rfl⟩
  | cons data later => exact .inr ⟨data,later,rfl,List.length_pos_iff.mpr (filled data (List.mem_cons_self ..))⟩

theorem sendMsgs_queued {node : CNode} {queue : List CSerializeData} (queued : Queued node queue) (results : List SendResult) :
    ∃ left after sent, node.sendMsgs queue results = .ok (left,after,sent) ∧ Queued after left ∧
      queue.flatten.drop node.nSendOffset = sent ++ left.flatten.drop after.nSendOffset ∧ after.ssSend = node.ssSend := by
  induction queue generalizing node results with
  | nil => exact ⟨[],node,[],rfl,queued,rfl,rfl⟩
  | cons data rest ih =>
    obtain ⟨size,offset,filled⟩ := queued
    have inside : node.nSendOffset < data.length := by
      rcases offset with ⟨empty,_⟩ | ⟨_,_,same,inside⟩
      · contradiction
      · rwa [(List.cons.inj same).1]
    have start : (data :: rest).flatten.drop node.nSendOffset = data.drop node.nSendOffset ++ rest.flatten := by
      rw [List.flatten_cons,List.drop_append_of_le_length (Nat.le_of_lt inside)]
    unfold CNode.sendMsgs
    rw [if_neg (not_not.mpr inside)]
    split
    next n _ =>
      dsimp only
      have pieces : (data.drop node.nSendOffset).take n ++ (data.drop node.nSendOffset).drop n = data.drop node.nSendOffset := List.take_append_drop ..
      have long : ((data.drop node.nSendOffset).take n).length = min n (data.length-node.nSendOffset) := by
        rw [List.length_take,List.length_drop]
      split
      · exact ⟨data :: rest,node,[],rfl,⟨size,.inr ⟨data,rest,rfl,inside⟩,filled⟩,rfl,rfl⟩
      · split
        next finished =>
          have none' : (data.drop node.nSendOffset).drop n = [] := by
            apply List.drop_eq_nil_of_le
            rw [List.length_drop]
            omega
          rw [none',List.append_nil] at pieces
          have restFilled : ∀ data ∈ rest, data ≠ [] := fun data member => filled data (List.mem_cons_of_mem _ member)
          obtain ⟨left,after,sent,sends,queued,bytes,same⟩ := @ih
            {node with
              nSendBytes := node.nSendBytes+((data.drop node.nSendOffset).take n).length
              nSendOffset := 0
              nSendSize := node.nSendSize-data.length}
            ⟨by rw [size,List.map_cons,List.sum_cons,Nat.add_sub_cancel_left],offset_of_filled restFilled,restFilled⟩ results.tail
          rw [sends]
          refine ⟨left,after,_,rfl,queued,?_,same⟩
          rw [start,pieces,List.append_assoc,← bytes]
          rfl
        next unfinished =>
          refine ⟨data :: rest,_,_,rfl,⟨size,.inr ⟨data,rest,rfl,?_⟩,filled⟩,?_,rfl⟩
          · dsimp only
            omega
          · have more : n < data.length-node.nSendOffset := by omega
            rw [start,List.flatten_cons,List.drop_append_of_le_length (by dsimp only; omega)]
            dsimp only
            rw [← List.drop_drop,long,Nat.min_eq_left (Nat.le_of_lt more),← List.append_assoc,pieces]
    next fatal _ =>
      refine ⟨data :: rest,_,[],rfl,?_,?_,?_⟩
      · cases fatal <;> exact ⟨size,.inr ⟨data,rest,rfl,inside⟩,filled⟩
      · cases fatal <;> rfl
      · cases fatal <;> rfl

/-- What is in the queue and not yet sent. -/
def unsent (node : CNode) : List UInt8 := node.vSendMsg.flatten.drop node.nSendOffset

theorem SocketSendData_queued {node : CNode} (queued : Queued node node.vSendMsg) (results : List SendResult) :
    ∃ after sent, node.SocketSendData results = .ok (after,sent) ∧ Queued after after.vSendMsg ∧
      unsent node = sent ++ unsent after ∧ after.ssSend = node.ssSend := by
  obtain ⟨left,after,sent,sends,queued,bytes,same⟩ := sendMsgs_queued queued results
  unfold CNode.SocketSendData
  rw [sends]
  dsimp only
  have first : ¬(left.isEmpty = true ∧ after.nSendOffset ≠ 0) := by
    rintro ⟨empty,moved⟩
    rcases queued.offset with ⟨_,zero⟩ | ⟨data,later,rfl,_⟩
    · exact moved zero
    · contradiction
  have second : ¬(left.isEmpty = true ∧ after.nSendSize ≠ 0) := by
    rintro ⟨empty,size⟩
    rw [queued.size,List.isEmpty_iff.mp empty] at size
    exact size rfl
  rw [if_neg first,if_neg second]
  exact ⟨_,sent,rfl,⟨queued.size,queued.offset,queued.filled⟩,bytes,same⟩

/-- `EndMessage` makes the bytes of the message into its frame. -/
theorem EndMessage_data {m : Message} (fits : m.arguments.length ≤ MAX_SIZE) :
    let ssSend := (CMessageHeader.make net m.pszCommand 0).bytes ++ m.arguments
    let nSize := (ssSend.length-CMessageHeader.HEADER_SIZE)%2^32
    let sized := overwrite ssSend CMessageHeader.MESSAGE_SIZE_OFFSET (uintBytes nSize)
    sized.drop CMessageHeader.HEADER_SIZE = m.arguments ∧ sized.length ≥ CMessageHeader.CHECKSUM_OFFSET+4 ∧
      overwrite sized CMessageHeader.CHECKSUM_OFFSET (uintBytes (net.Hash m.arguments%2^32)) = m.frame net := by
  intro ssSend nSize sized
  have startSize := net.size_start
  have commandSize : (strncpy m.pszCommand).length = 12 := length_resize _ _
  have place : CMessageHeader.MESSAGE_SIZE_OFFSET = (net.pchMessageStart ++ strncpy m.pszCommand).length := by
    rw [List.length_append,startSize,commandSize]
    rfl
  have count : nSize = m.arguments.length := by
    have small : MAX_SIZE < 2^32 := by decide
    have long : ssSend.length-CMessageHeader.HEADER_SIZE = m.arguments.length := by
      simp [ssSend,CMessageHeader.make,CMessageHeader.bytes,uintBytes,startSize,commandSize,CMessageHeader.HEADER_SIZE]
      omega
    show (ssSend.length-CMessageHeader.HEADER_SIZE)%2^32 = _
    rw [long,Nat.mod_eq_of_lt (by omega)]
  have first : sized = net.pchMessageStart ++ strncpy m.pszCommand ++ uintBytes m.arguments.length ++ (uintBytes 0 ++ m.arguments) := by
    have parts : ssSend = net.pchMessageStart ++ strncpy m.pszCommand ++ uintBytes 0 ++ (uintBytes 0 ++ m.arguments) := by
      simp [ssSend,CMessageHeader.make,CMessageHeader.bytes]
    show overwrite ssSend _ (uintBytes nSize) = _
    rw [parts,count]
    exact overwrite_middle _ _ _ _ place rfl
  have header : sized = net.pchMessageStart ++ strncpy m.pszCommand ++ uintBytes m.arguments.length ++ uintBytes 0 ++ m.arguments := by
    rw [first,List.append_assoc _ (uintBytes 0) m.arguments]
  have long : (net.pchMessageStart ++ strncpy m.pszCommand ++ uintBytes m.arguments.length).length = 20 := by
    simp [startSize,commandSize,uintBytes]
  refine ⟨?_,?_,?_⟩
  · have whole : (net.pchMessageStart ++ strncpy m.pszCommand ++ uintBytes m.arguments.length ++ uintBytes 0).length = 24 := by
      rw [List.length_append,long]
      rfl
    rw [header,show CMessageHeader.HEADER_SIZE = _ from whole.symm,List.drop_left]
  · rw [header,List.length_append,List.length_append,long]
    exact Nat.le_add_right 24 _
  · rw [header]
    exact overwrite_middle _ _ _ _ long.symm rfl

theorem PushMessage_queued {node : CNode} (idle : node.ssSend = []) (queued : Queued node node.vSendMsg) {m : Message}
    {drops : Bool} (fits : drops = false → m.arguments.length ≤ MAX_SIZE) (results : List SendResult) :
    ∃ after sent, node.PushMessage net m.pszCommand m.arguments drops results = .ok (after,sent) ∧ Queued after after.vSendMsg ∧
      unsent node ++ (if drops then [] else m.frame net) = sent ++ unsent after ∧ after.ssSend = [] := by
  unfold CNode.PushMessage CNode.BeginMessage
  rw [idle]
  dsimp only [List.length_nil,List.nil_append]
  rw [if_neg (not_not.mpr rfl)]
  unfold CNode.EndMessage
  cases drops with
  | true => exact ⟨_,[],rfl,⟨queued.size,queued.offset,queued.filled⟩,List.append_nil _,rfl⟩
  | false =>
    obtain ⟨args,long,data⟩ := @EndMessage_data net m (fits rfl)
    have written : ((CMessageHeader.make net m.pszCommand 0).bytes ++ m.arguments).length ≠ 0 := by
      simp [CMessageHeader.bytes,uintBytes]
    dsimp only
    rw [if_neg Bool.false_ne_true,if_neg written,args,if_neg (not_not.mpr long),data]
    have next : Queued {node with
        ssSend := []
        vSendMsg := node.vSendMsg ++ [m.frame net]
        nSendSize := node.nSendSize+(m.frame net).length} (node.vSendMsg ++ [m.frame net]) := by
      refine ⟨by simp [queued.size],?_,?_⟩
      · right
        rcases queued.offset with ⟨empty,zero⟩ | ⟨data,later,same,inside⟩
        · refine ⟨m.frame net,[],by rw [empty]; rfl,?_⟩
          dsimp only
          rw [zero]
          exact List.length_pos_iff.mpr (frame_filled m)
        · exact ⟨data,later ++ [m.frame net],by rw [same]; rfl,inside⟩
      · intro data member
        rcases List.mem_append.mp member with old | new
        · exact queued.filled data old
        · rw [List.mem_singleton.mp new]
          exact frame_filled m
    have bytes : unsent {node with
        ssSend := []
        vSendMsg := node.vSendMsg ++ [m.frame net]
        nSendSize := node.nSendSize+(m.frame net).length} = unsent node ++ m.frame net := by
      have inside : node.nSendOffset ≤ node.vSendMsg.flatten.length := by
        rcases queued.offset with ⟨_,zero⟩ | ⟨data,later,same,inside⟩
        · omega
        · rw [same,List.flatten_cons,List.length_append]
          omega
      show (node.vSendMsg ++ [m.frame net]).flatten.drop node.nSendOffset = _
      rw [List.flatten_append,List.drop_append_of_le_length inside]
      simp [unsent]
    split
    · obtain ⟨after,sent,sends,queued,sentBytes,same⟩ := SocketSendData_queued next results
      exact ⟨after,sent,sends,queued,by rw [← sentBytes,bytes]; rfl,same⟩
    · exact ⟨_,[],rfl,next,by rw [bytes]; rfl,rfl⟩

/-! ### The connection -/

/-- The messages that were written and not dropped. -/
def writtenBy (events : List NetEvent) : List Message :=
  events.filterMap fun event =>
    match event with
    | .PushMessage pszCommand arguments false _ => some ⟨pszCommand,arguments⟩
    | _ => none

/-- What every step keeps. -/
structure Carries (net : NetRules) (written : List Message) (c : Connection) : Prop where
  idle : c.sender.ssSend = []
  queued : Queued c.sender c.sender.vSendMsg
  sends : c.wire ++ unsent c.sender = (written.map (Message.frame net)).flatten
  isOpen : c.receiver.hSocket = true
  reads : ∃ stream done rest part, c.wire = stream ++ c.inFlight ∧ Reads net written stream c.receiver.vRecvMsg done rest part

theorem Reads.more (reads : Reads net written stream msgs done rest part) (m : Message) :
    Reads net (written ++ [m]) stream msgs done (rest ++ [m]) part := by
  refine ⟨by rw [reads.written_eq,List.append_assoc],?_,reads.msgs_eq⟩
  rw [List.map_append,List.map_append]
  exact reads.cut.more (frame_filled m)

theorem carries_start : Carries net [] {} := by
  refine ⟨rfl,⟨rfl,.inl ⟨rfl,rfl⟩,fun data member => absurd member List.not_mem_nil⟩,rfl,rfl,[],[],[],[],rfl,rfl,?_,rfl⟩
  exact cut_nil fun frame member => absurd member List.not_mem_nil

theorem Carries.step {c : Connection} (carries : Carries net written c) (fits : ∀ m ∈ written, m.arguments.length ≤ MAX_SIZE) {event : NetEvent}
    (small : ∀ m ∈ writtenBy [event], m.arguments.length ≤ MAX_SIZE) :
    ∃ after, c.step net event = .ok after ∧ Carries net (written ++ writtenBy [event]) after := by
  obtain ⟨idle,queued,sends,isOpen,stream,done,rest,part,arrived,reads⟩ := carries
  have pushed : ∀ {after : CNode} {sent more : List UInt8} {messages : List Message}, Queued after after.vSendMsg → after.ssSend = [] →
      unsent c.sender ++ more = sent ++ unsent after → (messages.map (Message.frame net)).flatten = more →
      (∀ reads : Reads net written stream c.receiver.vRecvMsg done rest part,
        ∃ rest, Reads net (written ++ messages) stream c.receiver.vRecvMsg done rest part) →
      Carries net (written ++ messages) (c.push (after,sent)) := by
    intro after sent more messages queued idle bytes frames longer
    obtain ⟨rest,reads⟩ := longer reads
    refine ⟨idle,queued,?_,isOpen,stream,done,rest,part,?_,reads⟩
    · show c.wire ++ sent ++ unsent after = _
      rw [List.append_assoc,← bytes,← List.append_assoc,sends,List.map_append,List.flatten_append,frames]
    · show c.wire ++ sent = stream ++ (c.inFlight ++ sent)
      rw [arrived,List.append_assoc]
  cases event with
  | PushMessage pszCommand arguments drops results =>
    have sized : drops = false → arguments.length ≤ MAX_SIZE := by
      rintro rfl
      exact small ⟨pszCommand,arguments⟩ (List.mem_cons_self ..)
    obtain ⟨after,sent,ok,queued,bytes,same⟩ := @PushMessage_queued net c.sender idle queued ⟨pszCommand,arguments⟩ drops sized results
    refine ⟨c.push (after,sent),by rw [Connection.step,ok]; rfl,?_⟩
    cases drops with
    | true => exact pushed queued same bytes rfl fun reads => ⟨rest,by rw [show writtenBy _ = [] from rfl,List.append_nil]; exact reads⟩
    | false => exact pushed queued same bytes (by simp [writtenBy]) fun reads => ⟨_,reads.more ⟨pszCommand,arguments⟩⟩
  | SocketSendData results =>
    obtain ⟨after,sent,ok,queued,bytes,same⟩ := SocketSendData_queued queued results
    refine ⟨c.push (after,sent),by rw [Connection.step,ok]; rfl,?_⟩
    have none' : writtenBy [.SocketSendData results] = [] := rfl
    rw [none']
    exact pushed queued (same.trans idle) (by rw [List.map_nil,List.flatten_nil,List.append_nil]; exact bytes) rfl fun reads => ⟨rest,by rw [List.append_nil]; exact reads⟩
  | ReceiveMsgBytes nBytes =>
    have within : stream ++ c.inFlight.take nBytes.toNat <+: (written.map (Message.frame net)).flatten := by
      rw [← sends,arrived]
      exact ((List.prefix_append_right_inj stream).mpr (List.take_prefix ..)).trans (List.prefix_append ..)
    obtain ⟨msgs,done,rest,part,received,reads⟩ := receive_reads fits (le_refl _) reads within
    have step : c.step net (.ReceiveMsgBytes nBytes) =
        .ok {c with receiver := {c.receiver with vRecvMsg := msgs},inFlight := c.inFlight.drop nBytes.toNat} := by
      have took : c.receiver.ReceiveMsgBytes net (c.inFlight.take nBytes.toNat) = (true,{c.receiver with vRecvMsg := msgs}) := received
      rw [Connection.step,isOpen,took]
      rfl
    rw [show writtenBy _ = [] from rfl,List.append_nil]
    refine ⟨_,step,idle,queued,sends,isOpen,_,done,rest,part,?_,reads⟩
    rw [List.append_assoc,List.take_append_drop]
    exact arrived

theorem Carries.run {c : Connection} {events : List NetEvent} (carries : Carries net written c)
    (fits : ∀ m ∈ written ++ writtenBy events, m.arguments.length ≤ MAX_SIZE) :
    ∃ after, c.run net events = .ok after ∧ Carries net (written ++ writtenBy events) after := by
  induction events generalizing c written with
  | nil =>
    refine ⟨c,rfl,?_⟩
    rw [show writtenBy [] = [] from rfl,List.append_nil]
    exact carries
  | cons event events ih =>
    have parts : writtenBy (event :: events) = writtenBy [event] ++ writtenBy events := by
      rw [writtenBy,← List.singleton_append,List.filterMap_append]
      rfl
    rw [parts,← List.append_assoc] at fits ⊢
    have small : ∀ m ∈ writtenBy [event], m.arguments.length ≤ MAX_SIZE := fun m member => fits m (by simp [member])
    obtain ⟨mid,stepped,next⟩ := carries.step (fun m member => fits m (by simp [member])) small
    obtain ⟨after,ran,last⟩ := ih next fits
    refine ⟨after,?_,last⟩
    rw [Connection.run,stepped]
    exact ran

/-- What has come of the messages: some are complete, and at most one more is there, which
    is not. -/
structure Arrived (net : NetRules) (written : List Message) (stream : List UInt8) (msgs : List CNetMessage) (done rest : List Message)
    (part : List UInt8) (last : List CNetMessage) : Prop where
  written_eq : written = done ++ rest
  stream_eq : stream = (done.map (Message.frame net)).flatten ++ part
  msgs_eq : msgs = done.map (Message.received net) ++ last
  complete : ∀ m ∈ done, (m.received net).complete = true
  last_cases : (part = [] ∧ last = []) ∨
    ∃ m later msg, rest = m :: later ∧ part <+: m.frame net ∧ part ≠ m.frame net ∧ last = [msg] ∧ msg.complete = false

theorem Reads.arrived (reads : Reads net written stream msgs done rest part) (fits : ∀ m ∈ written, m.arguments.length ≤ MAX_SIZE) :
    Arrived net written stream msgs done rest part (if part = [] then [] else [reading net part]) := by
  refine ⟨reads.written_eq,reads.cut.stream_eq,reads.msgs_eq,fun m _ => complete_received m,?_⟩
  by_cases empty : part = []
  · exact .inl ⟨empty,if_pos empty⟩
  · right
    rcases reads.cut.short with ⟨_,none'⟩ | ⟨frame,later,first,isPrefix,strict⟩
    · exact absurd none' empty
    · cases rest with
      | nil => contradiction
      | cons m rest =>
        obtain ⟨rfl,_⟩ := List.cons.inj first
        have small := fits m (by rw [reads.written_eq]; simp)
        exact ⟨m,rest,_,rfl,isPrefix,strict,if_neg empty,reading_incomplete small isPrefix strict⟩

/-- In every run no assertion fails; what was sent and what waits in the queue are the
    frames of the messages, the accounts are right, and what was received are those
    messages as far as their bytes have come, so all of them in the end. -/
theorem messages_survive {events : List NetEvent} (fits : ∀ m ∈ writtenBy events, m.arguments.length ≤ MAX_SIZE) :
    ∃ c, Connection.run net {} events = .ok c ∧
      c.wire ++ unsent c.sender = ((writtenBy events).map (Message.frame net)).flatten ∧ Queued c.sender c.sender.vSendMsg ∧
      (∃ stream done rest part last, c.wire = stream ++ c.inFlight ∧
        Arrived net (writtenBy events) stream c.receiver.vRecvMsg done rest part last) ∧
      (c.sender.vSendMsg = [] → c.inFlight = [] → c.receiver.vRecvMsg = (writtenBy events).map (Message.received net)) := by
  obtain ⟨c,ran,carries⟩ := carries_start.run (by rw [List.nil_append]; exact fits)
  rw [List.nil_append] at carries
  obtain ⟨_,queued,sends,_,stream,done,rest,part,arrived,reads⟩ := carries
  refine ⟨c,ran,sends,queued,⟨stream,done,rest,part,_,arrived,reads.arrived fits⟩,?_⟩
  intro emptyQueue noneInFlight
  have allSent : stream = ((writtenBy events).map (Message.frame net)).flatten := by
    rw [← sends,unsent,emptyQueue,arrived,noneInFlight]
    simp
  have cut := reads.cut
  rw [allSent] at cut
  obtain ⟨whole,rfl⟩ := cut.whole
  have none' : rest = [] := by
    have count := congrArg List.length whole
    rw [List.length_map,List.length_map,reads.written_eq,List.length_append] at count
    exact List.length_eq_zero_iff.mp (by omega)
  have all : writtenBy events = done := by rw [reads.written_eq,none',List.append_nil]
  rw [reads.msgs_eq,if_pos rfl,List.append_nil,all]

private def verack : Message := ⟨[118,101,114,97,99,107],[]⟩
private def ping : Message := ⟨[112,105,110,103],[1,2,3,4,5,6,7,8]⟩

/-- The hashes of the two messages. -/
private def sampleNet : NetRules where
  pchMessageStart := [0x0a,0x11,0xc3,0x23]
  size_start := rfl
  Hash bytes := if bytes = [] then 39160925390442814803183810979379322187769677569078613684420430387119174776413 else
    40782311987007958022769086838293426745391163678671936180134884409547423351333

/-- The socket takes ten bytes at first, and the rest of both messages in two goes; the
    header of the second arrives in two pieces. -/
private def sampleEvents : List NetEvent :=
  [.PushMessage verack.pszCommand verack.arguments false [.bytes 10,.bytes 0],.ReceiveMsgBytes 7,
    .PushMessage ping.pszCommand ping.arguments false [],.SocketSendData [.bytes 14,.bytes 20,.error false],.ReceiveMsgBytes 30,
    .SocketSendData [.bytes 100],.ReceiveMsgBytes 1000]

/-- Both arrive. -/
theorem messages_survive_sample :
    ∃ c, Connection.run sampleNet {} sampleEvents = .ok c ∧ c.sender.nSendSize = 0 ∧
      c.receiver.vRecvMsg = [verack.received sampleNet,ping.received sampleNet] := by
  have small : ∀ m ∈ writtenBy sampleEvents, m.arguments.length ≤ MAX_SIZE := by decide +kernel
  have ends : (Connection.run sampleNet {} sampleEvents).toOption.map (fun c => (c.sender.vSendMsg,c.inFlight)) = some ([],[]) := by
    decide +kernel
  obtain ⟨c,ran,_,queued,_,all⟩ := @messages_survive sampleNet sampleEvents small
  rw [ran] at ends
  obtain ⟨emptyQueue,noneInFlight⟩ := Prod.mk.inj (Option.some.inj ends)
  refine ⟨c,ran,?_,all emptyQueue noneInFlight⟩
  rw [queued.size,emptyQueue]
  rfl

end
end Tetra
