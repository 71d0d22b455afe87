import Tetra.ScriptValues

/-!
Scripts written item by item and read operation by operation, with an iterator that may
only read inside of the script.
-/
namespace Tetra.CScript
open Codec

/-- What `operator<<` appends. -/
inductive Item
  | push (b : valtype)
  | opcode (opcode : Int)

/-- `operator<<` -/
def append (script : CScript) : Item → Except String CScript
  | .push b => .ok (script ++ pushValue b)
  | .opcode opcode =>
    if opcode < 0 ∨ opcode > 0xff then .error "CScript::operator<<() : invalid opcode" else .ok (script ++ [UInt8.ofNat opcode.toNat])

/-- What `GetOp2` returns, and where it leaves the iterator. -/
structure Fetched where
  fRet : Bool
  opcodeRet : Nat
  vchRet : valtype
  pc : Nat
deriving DecidableEq

/-- The bytes from an iterator on; there are none past the end. -/
def bytesAt (script : CScript) (pc n : Nat) : Option (List UInt8) := if pc+n ≤ script.length then some ((script.drop pc).take n) else none

def failed (pc : Nat) : Fetched := ⟨false,OP_INVALIDOPCODE,[],pc⟩

/-- The data of an operation; the bytes that are left are counted in 32 bits. -/
def fetchData (script : CScript) (opcode nSize pc : Nat) : Option Fetched :=
  if (script.length-pc)%2^32 < nSize then some (failed pc)
  else do
    let vchRet ← bytesAt script pc nSize
    return ⟨true,opcode,vchRet,pc+nSize⟩

/-- The bytes of the length after `OP_PUSHDATA1`, `OP_PUSHDATA2` and `OP_PUSHDATA4`. -/
def sizeWidth (opcode : Nat) : Nat := if opcode = OP_PUSHDATA1 then 1 else if opcode = OP_PUSHDATA2 then 2 else 4

/-- Nothing where the code reads outside of the script. -/
def GetOp2 (script : CScript) (pc : Nat) : Option Fetched :=
  if pc ≥ script.length then some (failed pc)
  else do
    let first ← bytesAt script pc 1
    let opcode := leNat first
    let pc := pc+1
    if opcode ≤ OP_PUSHDATA4 then
      if opcode < OP_PUSHDATA1 then fetchData script opcode opcode pc
      else if script.length-pc < sizeWidth opcode then some (failed pc)
      else do
        let bytes ← bytesAt script pc (sizeWidth opcode)
        fetchData script opcode (leNat bytes) (pc+sizeWidth opcode)
    else return ⟨true,opcode,[],pc⟩

/-- Reads operations until there is none: the operations, and where the iterator is then. -/
def parse (script : CScript) : Nat → Nat → Option (List (Nat × valtype) × Nat)
  | 0, _ => none
  | fuel+1, pc => do
    let fetched ← GetOp2 script pc
    if fetched.fRet then
      let (ops,pc) ← parse script fuel fetched.pc
      return ((fetched.opcodeRet,fetched.vchRet) :: ops,pc)
    else return ([],fetched.pc)

/-! ### Reading stays inside -/

theorem bytesAt_eq {script : CScript} {pc n : Nat} (inside : pc+n ≤ script.length) : bytesAt script pc n = some ((script.drop pc).take n) :=
  if_pos inside

/-- An iterator that has not been moved back or outside. -/
def Stays (script : CScript) (pc : Nat) (fetched : Fetched) : Prop := pc ≤ fetched.pc ∧ fetched.pc ≤ script.length

theorem fetchData_stays {script : CScript} {pc : Nat} (opcode nSize : Nat) (inside : pc ≤ script.length) :
    ∃ fetched, fetchData script opcode nSize pc = some fetched ∧ Stays script pc fetched := by
  rw [fetchData]
  split
  · exact ⟨_,rfl,le_rfl,inside⟩
  next enough =>
    have left := Nat.mod_le (script.length-pc) (2^32)
    rw [bytesAt_eq (by omega)]
    exact ⟨_,rfl,Nat.le_add_right _ _,show pc+nSize ≤ script.length by omega⟩

/-- Wherever the iterator is, `GetOp2` reads nothing outside of the script, moves the iterator
    on when it succeeds, and never past the end. -/
theorem GetOp2_stays (script : CScript) (pc : Nat) :
    ∃ fetched, GetOp2 script pc = some fetched ∧ (fetched.fRet = true → pc < fetched.pc) ∧ (pc ≤ script.length → Stays script pc fetched) := by
  rw [GetOp2]
  split
  next ended => exact ⟨failed pc,rfl,by simp [failed],fun inside => ⟨le_rfl,inside⟩⟩
  next more =>
    have step {fetched : Fetched} (stays : Stays script (pc+1) fetched) :
        (fetched.fRet = true → pc < fetched.pc) ∧ (pc ≤ script.length → Stays script pc fetched) :=
      ⟨fun _ => stays.1,fun _ => ⟨by have := stays.1; omega,stays.2⟩⟩
    rw [bytesAt_eq (by omega)]
    simp only [Option.bind_eq_bind,Option.bind_some]
    generalize leNat ((script.drop pc).take 1) = opcode
    split
    · split
      · obtain ⟨fetched,got,stays⟩ := fetchData_stays opcode opcode (show pc+1 ≤ script.length by omega)
        exact ⟨fetched,got,step stays⟩
      split
      · exact ⟨failed (pc+1),rfl,step ⟨le_rfl,show pc+1 ≤ script.length by omega⟩⟩
      · rw [bytesAt_eq (by omega)]
        obtain ⟨fetched,got,stays⟩ := fetchData_stays opcode (leNat ((script.drop (pc+1)).take (sizeWidth opcode)))
          (show pc+1+sizeWidth opcode ≤ script.length by omega)
        exact ⟨fetched,got,step ⟨by have := stays.1; omega,stays.2⟩⟩
    · exact ⟨⟨true,opcode,[],pc+1⟩,rfl,step ⟨le_rfl,show pc+1 ≤ script.length by omega⟩⟩

/-! ### What is written is read -/

/-- The operation that a value is pushed with. -/
def pushOpcode (b : valtype) : Nat :=
  if b.length < OP_PUSHDATA1 then b.length else if b.length ≤ 0xff then OP_PUSHDATA1 else if b.length ≤ 0xffff then OP_PUSHDATA2 else OP_PUSHDATA4

/-- An item as it is read back. -/
def Item.parsed : Item → Nat × valtype
  | .push b => (pushOpcode b,b)
  | .opcode code => (code.toNat,[])

/-- An operation by itself: `OP_0`, or one above those that data follows. -/
def Item.plain : Item → Prop
  | .push _ => True
  | .opcode code => code = 0 ∨ code > OP_PUSHDATA4

section
variable {script : CScript} {pc : Nat}

theorem length_at {bytes rest : List UInt8} (here : script.drop pc = bytes ++ rest) (some : 0 < bytes.length) :
    script.length = pc+bytes.length+rest.length := by
  have long := congrArg List.length here
  rw [List.length_drop,List.length_append] at long
  omega

theorem bytesAt_here {bytes rest : List UInt8} (here : script.drop pc = bytes ++ rest) (inside : pc ≤ script.length) :
    bytesAt script pc bytes.length = some bytes := by
  have long := congrArg List.length here
  rw [List.length_drop,List.length_append] at long
  rw [bytesAt_eq (by omega),here,List.take_left]

theorem drop_here {bytes rest : List UInt8} (here : script.drop pc = bytes ++ rest) : script.drop (pc+bytes.length) = rest := by
  rw [← List.drop_drop,here,List.drop_left]

theorem leNat_byte {n : Nat} (small : n < 256) : leNat [UInt8.ofNat n] = n := by
  simp [leNat,Nat.mod_eq_of_lt small]

variable (short : script.length < 2^32)
include short

theorem fetchData_here {b : valtype} {rest : List UInt8} (opcode : Nat) (here : script.drop pc = b ++ rest) (inside : pc ≤ script.length) :
    fetchData script opcode b.length pc = some ⟨true,opcode,b,pc+b.length⟩ := by
  have long := congrArg List.length here
  rw [List.length_drop,List.length_append] at long
  rw [fetchData,Nat.mod_eq_of_lt (by omega),if_neg (by omega),bytesAt_here here inside]
  rfl

theorem GetOp2_direct {b : valtype} {rest : List UInt8} (small : b.length < OP_PUSHDATA1)
    (here : script.drop pc = UInt8.ofNat b.length :: (b ++ rest)) : GetOp2 script pc = some ⟨true,b.length,b,pc+1+b.length⟩ := by
  have long := @length_at script pc [UInt8.ofNat b.length] (b ++ rest) here (by simp)
  have first := @bytesAt_here script pc [UInt8.ofNat b.length] (b ++ rest) here (by omega)
  have after := @drop_here script pc [UInt8.ofNat b.length] (b ++ rest) here
  rw [List.length_singleton] at long first after
  have fits : b.length < 256 := small.trans (by decide)
  have low : b.length ≤ OP_PUSHDATA4 := small.le.trans (by decide)
  rw [GetOp2,if_neg (by omega),first]
  simp only [Option.bind_eq_bind,Option.bind_some,leNat_byte fits]
  rw [if_pos low,if_pos small,fetchData_here short b.length after (by omega)]

theorem GetOp2_sized {b : valtype} {bytes rest : List UInt8} {opcode : Nat} (low : OP_PUSHDATA1 ≤ opcode) (high : opcode ≤ OP_PUSHDATA4)
    (width : bytes.length = sizeWidth opcode) (size : leNat bytes = b.length)
    (here : script.drop pc = UInt8.ofNat opcode :: (bytes ++ (b ++ rest))) :
    GetOp2 script pc = some ⟨true,opcode,b,pc+1+bytes.length+b.length⟩ := by
  have long := @length_at script pc [UInt8.ofNat opcode] (bytes ++ (b ++ rest)) here (by simp)
  have first := @bytesAt_here script pc [UInt8.ofNat opcode] (bytes ++ (b ++ rest)) here (by omega)
  have after := @drop_here script pc [UInt8.ofNat opcode] (bytes ++ (b ++ rest)) here
  rw [List.length_singleton] at long first after
  rw [List.length_append] at long
  have sized := bytesAt_here after (by omega)
  have fits : opcode < 256 := Nat.lt_of_le_of_lt high (by decide)
  rw [GetOp2,if_neg (by omega),first]
  simp only [Option.bind_eq_bind,Option.bind_some,leNat_byte fits]
  rw [if_pos high,if_neg (by omega),← width,if_neg (by omega),sized]
  simp only [Option.bind_some,size]
  exact fetchData_here short opcode (drop_here after) (by omega)

omit short in
theorem GetOp2_plain {opcode : Nat} {rest : List UInt8} (above : OP_PUSHDATA4 < opcode) (fits : opcode < 256)
    (here : script.drop pc = UInt8.ofNat opcode :: rest) : GetOp2 script pc = some ⟨true,opcode,[],pc+1⟩ := by
  have long := @length_at script pc [UInt8.ofNat opcode] rest here (by simp)
  have first := @bytesAt_here script pc [UInt8.ofNat opcode] rest here (by omega)
  rw [List.length_singleton] at long first
  rw [GetOp2,if_neg (by omega),first]
  simp only [Option.bind_eq_bind,Option.bind_some,leNat_byte fits]
  rw [if_neg (by omega)]
  rfl

/-- A value as `operator<<` writes it. -/
theorem GetOp2_pushValue {b : valtype} {rest : List UInt8} (here : script.drop pc = pushValue b ++ rest) :
    GetOp2 script pc = some ⟨true,pushOpcode b,b,pc+(pushValue b).length⟩ := by
  have inside : b.length ≤ script.length := by
    have long := congrArg List.length here
    rw [List.length_drop,List.length_append,pushValue,List.length_append] at long
    omega
  rw [pushValue] at here ⊢
  rw [pushOpcode]
  by_cases direct : b.length < OP_PUSHDATA1
  · rw [if_pos direct] at here ⊢
    rw [if_pos direct,GetOp2_direct short direct here]
    simp [Nat.add_assoc,Nat.add_comm 1]
  rw [if_neg direct] at here ⊢
  rw [if_neg direct]
  by_cases byte : b.length ≤ 0xff
  · rw [if_pos byte] at here ⊢
    rw [if_pos byte,@GetOp2_sized script pc short b [UInt8.ofNat b.length] rest OP_PUSHDATA1 (by decide) (by decide) rfl
      (leNat_byte (by omega)) here]
    simp [Nat.add_assoc]
    omega
  rw [if_neg byte] at here ⊢
  rw [if_neg byte]
  by_cases word : b.length ≤ 0xffff
  · rw [if_pos word] at here ⊢
    rw [if_pos word,@GetOp2_sized script pc short b (leBytes 2 b.length) rest OP_PUSHDATA2 (by decide) (by decide) (leBytes_length ..)
      (leNat_leBytes (by omega)) (by rw [here]; simp)]
    simp [Nat.add_assoc]
    omega
  rw [if_neg word] at here ⊢
  rw [if_neg word,@GetOp2_sized script pc short b (leBytes 4 b.length) rest OP_PUSHDATA4 (by decide) (by decide) (leBytes_length ..)
    (leNat_leBytes (by omega)) (by rw [here]; simp)]
  simp [Nat.add_assoc]
  omega

/-- What an item adds to a script is read as that item. -/
theorem append_fetched {before after : CScript} {item : Item} (plain : item.plain) (added : append before item = .ok after)
    {rest : List UInt8} (whole : script = after ++ rest) :
    GetOp2 script before.length = some ⟨true,item.parsed.1,item.parsed.2,after.length⟩ := by
  cases item with
  | push b =>
    obtain rfl := Except.ok.inj added
    rw [List.append_assoc] at whole
    have here : script.drop before.length = pushValue b ++ rest := by rw [whole,List.drop_left]
    rw [GetOp2_pushValue short here,List.length_append]
    rfl
  | opcode code =>
    rw [append] at added
    split at added
    · contradiction
    next range =>
      obtain rfl := Except.ok.inj added
      rw [List.append_assoc] at whole
      have here : script.drop before.length = UInt8.ofNat code.toNat :: rest := by rw [whole,List.drop_left]; rfl
      rw [List.length_append,List.length_singleton]
      rcases plain with rfl | above
      · exact @GetOp2_direct script before.length short [] rest (by decide) here
      · have low : OP_PUSHDATA4 < code.toNat := by
          have above' : (OP_PUSHDATA4 : Int) < code := above
          omega
        have high : code.toNat < 256 := by omega
        exact GetOp2_plain low high here

end

/-! ### The same operations as in the other modules -/

theorem readSize_eq (width : Nat) (bytes : List UInt8) :
    readSize width bytes = if bytes.length < width then none else some (leNat (bytes.take width),bytes.drop width) := by
  have value (bytes : List UInt8) : bytes.foldr (fun byte value => byte.toNat+256*value) 0 = leNat bytes := by
    induction bytes with
    | nil => rfl
    | cons byte rest ih => rw [List.foldr_cons,ih,leNat]
  rw [readSize,value]

/-- What `GetOp` finds in what is left of a script, once its data is to be fetched. -/
theorem fetchData_listed {script : CScript} {pc : Nat} (short : script.length < 2^32) (opcode nSize : Nat) (inside : pc ≤ script.length) :
    ∃ fetched, fetchData script opcode nSize pc = some fetched ∧
      (if (script.drop pc).length < nSize then none else some (opcode,(script.drop pc).take nSize,(script.drop pc).drop nSize)) =
        if fetched.fRet then some (fetched.opcodeRet,fetched.vchRet,script.drop fetched.pc) else none := by
  rw [fetchData,Nat.mod_eq_of_lt (by omega),List.length_drop]
  by_cases few : script.length-pc < nSize
  · rw [if_pos few,if_pos few]
    exact ⟨_,rfl,rfl⟩
  · rw [if_neg few,if_neg few,bytesAt_eq (by omega),List.drop_drop]
    exact ⟨_,rfl,rfl⟩

theorem GetOp2_listed {script : CScript} {pc : Nat} (short : script.length < 2^32) (inside : pc ≤ script.length) :
    ∃ fetched, GetOp2 script pc = some fetched ∧
      GetOp (script.drop pc) = if fetched.fRet then some (fetched.opcodeRet,fetched.vchRet,script.drop fetched.pc) else none := by
  cases here : script.drop pc with
  | nil =>
    have ended : pc ≥ script.length := List.drop_eq_nil_iff.mp here
    rw [GetOp2,if_pos ended]
    exact ⟨_,rfl,rfl⟩
  | cons first rest =>
    have long := @length_at script pc [first] rest here (by simp)
    have byte := @bytesAt_here script pc [first] rest here (by omega)
    have after := @drop_here script pc [first] rest here
    rw [List.length_singleton] at long byte after
    have code : leNat [first] = first.toNat := by simp [leNat]
    rw [GetOp2,if_neg (by omega),byte]
    simp only [Option.bind_eq_bind,Option.bind_some,code,GetOp]
    by_cases low : first.toNat ≤ OP_PUSHDATA4
    · rw [if_pos low,if_pos low]
      by_cases direct : first.toNat < OP_PUSHDATA1
      · obtain ⟨fetched,got,listed⟩ := fetchData_listed short first.toNat first.toNat (show pc+1 ≤ script.length by omega)
        rw [after] at listed
        rw [if_pos direct,if_pos direct]
        exact ⟨fetched,got,listed⟩
      · have width : (if first.toNat = OP_PUSHDATA1 then readSize 1 rest else if first.toNat = OP_PUSHDATA2 then readSize 2 rest else readSize 4 rest) =
            readSize (sizeWidth first.toNat) rest := by
          rw [sizeWidth]
          split_ifs <;> rfl
        rw [if_neg direct,if_neg direct,width,readSize_eq]
        by_cases few : rest.length < sizeWidth first.toNat
        · rw [if_pos few,if_pos (by omega)]
          exact ⟨_,rfl,rfl⟩
        · obtain ⟨fetched,got,listed⟩ := fetchData_listed short first.toNat (leNat (rest.take (sizeWidth first.toNat)))
            (show pc+1+sizeWidth first.toNat ≤ script.length by omega)
          rw [← List.drop_drop,after] at listed
          rw [if_neg few,if_neg (by omega),bytesAt_eq (by omega),after]
          exact ⟨fetched,got,listed⟩
    · rw [if_neg low,if_neg low]
      exact ⟨_,rfl,by rw [if_pos rfl,after]⟩

/-! ### Lists of items -/

theorem append_longer {before after : CScript} {item : Item} (added : append before item = .ok after) : ∃ bytes, after = before ++ bytes ∧ 0 < bytes.length := by
  cases item with
  | push b =>
    refine ⟨_,(Except.ok.inj added).symm,?_⟩
    rw [pushValue]
    split
    · simp
    split
    · simp
    split
    · simp
    · simp
  | opcode code =>
    rw [append] at added
    split at added
    · contradiction
    · exact ⟨_,(Except.ok.inj added).symm,by simp⟩

/-- `operator<<` for each of a list. -/
def appendAll (script : CScript) (items : List Item) : Except String CScript := items.foldlM append script

theorem appendAll_longer {items : List Item} {before script : CScript} (added : appendAll before items = .ok script) :
    ∃ bytes, script = before ++ bytes ∧ items.length ≤ bytes.length := by
  induction items generalizing before with
  | nil => exact ⟨[],by rw [List.append_nil]; exact (Except.ok.inj added).symm,le_rfl⟩
  | cons item items ih =>
    rw [appendAll,List.foldlM_cons] at added
    cases first : append before item with
    | error e => rw [first] at added; contradiction
    | ok after =>
      rw [first] at added
      obtain ⟨bytes,rfl,some⟩ := append_longer first
      obtain ⟨more,rfl,enough⟩ := ih added
      refine ⟨bytes ++ more,List.append_assoc ..,?_⟩
      rw [List.length_cons,List.length_append]
      omega

theorem parse_items {items : List Item} (plain : ∀ item ∈ items, item.plain) {before script : CScript} (added : appendAll before items = .ok script)
    (short : script.length < 2^32) (fuel : Nat) (enough : items.length < fuel) :
    parse script fuel before.length = some (items.map Item.parsed,script.length) := by
  induction items generalizing before fuel with
  | nil =>
    obtain ⟨fuel,rfl⟩ : ∃ less, fuel = less+1 := ⟨fuel-1,by rw [List.length_nil] at enough; omega⟩
    obtain rfl := Except.ok.inj added
    rw [parse,GetOp2,if_pos le_rfl]
    rfl
  | cons item items ih =>
    rw [List.length_cons] at enough
    obtain ⟨fuel,rfl⟩ : ∃ less, fuel = less+1 := ⟨fuel-1,by omega⟩
    rw [appendAll,List.foldlM_cons] at added
    cases first : append before item with
    | error e => rw [first] at added; contradiction
    | ok after =>
      rw [first] at added
      obtain ⟨bytes,whole,_⟩ := appendAll_longer added
      have fetched := append_fetched short (plain item (List.mem_cons_self ..)) first whole
      have rest := ih (fun other member => plain other (List.mem_cons_of_mem _ member)) added fuel (by omega)
      rw [parse,fetched]
      simp only [Option.bind_eq_bind,Option.bind_some,if_true,rest]
      rfl

/-- Every script of fewer than `2^32` bytes is read as it was written, and whatever a script
    holds, reading stays inside of it and moves on. -/
theorem push_parse_agree {before script : CScript} {items : List Item} (plain : ∀ item ∈ items, item.plain)
    (added : appendAll before items = .ok script) (short : script.length < 2^32) :
    parse script (script.length+1) before.length = some (items.map Item.parsed,script.length) ∧
    ∀ (script : CScript) (pc : Nat), ∃ fetched, GetOp2 script pc = some fetched ∧ (fetched.fRet = true → pc < fetched.pc) ∧
      (pc ≤ script.length → Stays script pc fetched) := by
  refine ⟨?_,GetOp2_stays⟩
  obtain ⟨bytes,rfl,enough⟩ := appendAll_longer added
  exact parse_items plain added short _ (by rw [List.length_append]; omega)

/-- Two values and an operation after a byte that was there. -/
theorem push_parse_agree_three : parse [0x61,2,7,8,0xac,0] 7 1 = some ([(2,[7,8]),(0xac,[]),(0,[])],6) :=
  (@push_parse_agree [0x61] [0x61,2,7,8,0xac,0] [.push [7,8],.opcode 0xac,.push []]
    (by simp [Item.plain,OP_PUSHDATA4]) rfl (by decide)).1

theorem pushValue_length_long {b : valtype} (long : 0xffff < b.length) : (pushValue b).length = b.length+5 := by
  rw [pushValue,if_neg (by rw [OP_PUSHDATA1]; omega),if_neg (by omega),if_neg (by omega)]
  simp
  omega

/-- `2^32` bytes that are left count as none. -/
theorem parse_truncated {rest : List UInt8} (long : rest.length+1 = 2^32) (fuel : Nat) :
    parse (1 :: 7 :: rest) (fuel+1) 0 = some ([],1) := by
  have size : (1 :: 7 :: rest : CScript).length = 2^32+1 := by rw [List.length_cons,List.length_cons,long]
  rw [parse,GetOp2,if_neg (by omega),bytesAt_eq (by omega)]
  simp only [Option.bind_eq_bind,Option.bind_some]
  have opcode : leNat ((List.drop 0 (1 :: 7 :: rest : List UInt8)).take 1) = 1 := rfl
  rw [opcode,if_pos (by decide),if_pos (by decide),fetchData,size,if_pos (by norm_num)]
  rfl

/-- Parsing what items have added to a script gives them back, and stops at the end. -/
def Agrees (before : CScript) (items : List Item) : Prop :=
  ∀ script, appendAll before items = .ok script → parse script (script.length+1) before.length = some (items.map Item.parsed,script.length)

/-- A bare `OP_PUSHDATA1` takes the next operation for a length; and when `2^32` bytes are
    left, no value of one byte is found among them. -/
theorem push_parse_disagree : ¬Agrees [] [.opcode OP_PUSHDATA1,.opcode 0x61] ∧ ¬Agrees [] [.push [7],.push (List.replicate (2^32-6) 0)] := by
  constructor
  · intro agree
    have read := agree [0x4c,0x61] rfl
    exact absurd read (by decide)
  · generalize isLong : List.replicate (2^32-6) (0 : UInt8) = b
    have long : b.length = 2^32-6 := by rw [← isLong,List.length_replicate]
    intro agree
    have read : parse (1 :: 7 :: pushValue b) ((1 :: 7 :: pushValue b).length+1) 0 = _ := agree _ rfl
    have rest : (pushValue b).length+1 = 2^32 := by rw [pushValue_length_long (by omega)]; omega
    rw [parse_truncated rest] at read
    have ops := (Prod.mk.inj (Option.some.inj read)).1
    contradiction

end Tetra.CScript
