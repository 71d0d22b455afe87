import Mathlib
import Tetra.Buffer
import Tetra.EndorseMessages
import Tetra.Serialize

/-!
The buffers of hexadecimal texts: what `SetHex`, `strToHex` and `charToHex` write, and
where, and which texts give back the bytes that they were made of.
-/
namespace Tetra.Deer
open Buffer

/-! ### Texts of bytes -/

def hexDigit (n : UInt8) : UInt8 := if n < 10 then 0x30+n else 0x57+n

/-- `"%02x"` -/
def hexOf (byte : UInt8) : Text := [hexDigit (byte >>> 4),hexDigit (byte &&& 0x0F)]

/-- `CPubKey::GetHex` -/
def GetHex (key : CPubKey) : Text := key.flatMap hexOf

theorem hexOf_digits (byte : UInt8) : isHex (hexDigit (byte >>> 4)) = true ∧ isHex (hexDigit (byte &&& 0x0F)) = true ∧
    isspace (hexDigit (byte >>> 4)) = false ∧ phexdigit (hexDigit (byte >>> 4)) <<< 4 ||| phexdigit (hexDigit (byte &&& 0x0F)) = byte := by
  have all : ∀ b : Fin 256, isHex (hexDigit (UInt8.ofNat b >>> 4)) = true ∧ isHex (hexDigit (UInt8.ofNat b &&& 0x0F)) = true ∧
      isspace (hexDigit (UInt8.ofNat b >>> 4)) = false ∧
      phexdigit (hexDigit (UInt8.ofNat b >>> 4)) <<< 4 ||| phexdigit (hexDigit (UInt8.ofNat b &&& 0x0F)) = UInt8.ofNat b := by decide +kernel
  have here := all ⟨byte.toNat,byte.toNat_lt⟩
  rwa [UInt8.ofNat_toNat] at here

theorem digitBytes_hex (bytes : List UInt8) : digitBytes (bytes.flatMap hexOf) = bytes := by
  induction bytes with
  | nil => rfl
  | cons byte bytes ih =>
    obtain ⟨_,_,_,whole⟩ := hexOf_digits byte
    rw [List.flatMap_cons,hexOf,List.cons_append,List.cons_append,List.nil_append,digitBytes,whole,ih]

theorem hex_length (bytes : List UInt8) : (bytes.flatMap hexOf).length = 2*bytes.length := by
  induction bytes with
  | nil => rfl
  | cons byte bytes ih =>
    rw [List.flatMap_cons,List.length_append,ih,hexOf,List.length_cons]
    simp
    omega

/-- All characters of such a text are digits. -/
theorem isHex_hex {bytes : List UInt8} {c : UInt8} (member : c ∈ bytes.flatMap hexOf) : isHex c = true := by
  obtain ⟨byte,_,digit⟩ := List.mem_flatMap.mp member
  obtain ⟨high,low,_,_⟩ := hexOf_digits byte
  rcases List.mem_pair.mp digit with rfl | rfl
  · exact high
  · exact low

theorem dropWhile_hex (bytes : List UInt8) : (bytes.flatMap hexOf).dropWhile isspace = bytes.flatMap hexOf := by
  cases bytes with
  | nil => rfl
  | cons byte bytes =>
    obtain ⟨_,_,visible,_⟩ := hexOf_digits byte
    rw [List.flatMap_cons,hexOf,List.cons_append,List.dropWhile_cons_of_neg (by simp [visible])]

theorem takeWhile_hex (bytes : List UInt8) : (bytes.flatMap hexOf).takeWhile isHex = bytes.flatMap hexOf :=
  List.takeWhile_eq_self_iff.mpr fun _ => isHex_hex

theorem hex_digits (bytes : List UInt8) : ((bytes.flatMap hexOf).dropWhile isspace).takeWhile isHex = bytes.flatMap hexOf := by
  rw [dropWhile_hex,takeWhile_hex]

theorem hexBytes_hex (bytes : List UInt8) : hexBytes (bytes.flatMap hexOf) bytes.length = bytes := by
  rw [hexBytes,hex_digits,digitBytes_hex,List.take_length]

theorem digitBytes_length (digits : Text) : (digitBytes digits).length = (digits.length+1)/2 := by
  induction digits using digitBytes.induct with
  | case1 high low rest ih =>
    rw [digitBytes,List.length_cons,ih]
    simp only [List.length_cons]
    omega
  | case2 high => simp [digitBytes]
  | case3 => rfl

/-! ### Decoding into memory -/

/-- The loop over the digits while `p1 < pend`; a byte is written in two halves. -/
def decode (WIDTH : Nat) (m : Trace UInt8) (p1 : Nat) : Text → Trace UInt8
  | high :: low :: rest =>
    if p1 < WIDTH then decode WIDTH (m.poke p1 (phexdigit high <<< 4 ||| phexdigit low)) (p1+1) rest else m
  | [high] => if p1 < WIDTH then m.poke p1 (phexdigit high <<< 4) else m
  | [] => m

theorem decode_eq (WIDTH : Nat) (m : Trace UInt8) (p1 : Nat) (digits : Text) :
    decode WIDTH m p1 digits = m.pokes p1 ((digitBytes digits).take (WIDTH-p1)) := by
  induction digits using digitBytes.induct generalizing m p1 with
  | case1 high low rest ih =>
    rw [decode,digitBytes]
    by_cases room : p1 < WIDTH
    · rw [if_pos room,ih,show WIDTH-p1 = WIDTH-(p1+1)+1 by omega,List.take_succ_cons,Trace.pokes]
    · rw [if_neg room,show WIDTH-p1 = 0 by omega,List.take_zero,Trace.pokes]
  | case2 high =>
    rw [decode,digitBytes]
    by_cases room : p1 < WIDTH
    · rw [if_pos room,show WIDTH-p1 = WIDTH-p1-1+1 by omega,List.take_succ_cons,List.take_nil]
      rfl
    · rw [if_neg room,show WIDTH-p1 = 0 by omega,List.take_zero,Trace.pokes]
  | case3 =>
    rw [digitBytes,List.take_nil]
    rfl

/-- `CPubKey::SetHex` on the memory from `vch` on, and whether the key is valid after it.
    The loop that fills goes on to `WIDTH` itself. -/
def SetHexIn (m : Trace UInt8) (hex : Text) (WIDTH : Nat) : Trace UInt8 × Bool :=
  let m := (List.range (WIDTH+1)).foldl (fun m i => m.poke i 0xFF) m
  let hex := hex.dropWhile isspace
  if startsFf hex then (m.poke 0 0xFF,false)
  else
    let m := decode WIDTH m 0 (hex.takeWhile isHex)
    (m,GetLen (m.cells 0) > 0)

/-- `HexToPbk`: the width is an unsigned `int`, and the key is invalid before. -/
def HexToPbkIn (memory : Nat → UInt8) (s : Text) : Trace UInt8 × Bool :=
  SetHexIn ((⟨memory,[]⟩ : Trace UInt8).poke 0 0xFF) s ((s.length/2)%2^32)

/-- From `begin()` to `end()`. -/
def keyIn (m : Trace UInt8) : CPubKey := (List.range (GetLen (m.cells 0))).map m.cells

theorem fill_eq (m : Trace UInt8) (n : Nat) : (List.range n).foldl (fun m i => m.poke i 0xFF) m = m.pokes 0 (List.replicate n 0xFF) := by
  induction n with
  | zero => rfl
  | succ n ih =>
    rw [List.range_succ,List.foldl_append,ih,List.replicate_succ',Trace.pokes_append,List.length_replicate,Nat.zero_add]
    rfl

/-- Every place that is written is one up to the width, whatever the text is. -/
theorem mem_SetHexIn_written (m : Trace UInt8) (hex : Text) (WIDTH i : Nat) :
    i ∈ (SetHexIn m hex WIDTH).1.written ↔ i ∈ m.written ∨ i ≤ WIDTH := by
  have filled : i ∈ (m.pokes 0 (List.replicate (WIDTH+1) 0xFF)).written ↔ i ∈ m.written ∨ i ≤ WIDTH := by
    rw [Trace.mem_pokes_written,List.length_replicate]
    grind
  unfold SetHexIn
  simp only [fill_eq]
  split
  · rw [Trace.poke_written,List.mem_cons,filled]
    grind
  · have most := List.length_take_le WIDTH (digitBytes ((hex.dropWhile isspace).takeWhile isHex))
    rw [decode_eq,Trace.mem_pokes_written,filled,Nat.sub_zero]
    grind

/-- A text that `startsFf` leaves no key; any other one the bytes of its digits, and `0xFF`
    in the rest of the width. -/
theorem SetHexIn_cells (m : Trace UInt8) (hex : Text) (WIDTH i : Nat) (plain : startsFf (hex.dropWhile isspace) = false) :
    (SetHexIn m hex WIDTH).1.cells i = (hexBytes hex WIDTH)[i]?.getD (if i ≤ WIDTH then 0xFF else m.cells i) := by
  have filled : (m.pokes 0 (List.replicate (WIDTH+1) 0xFF)).cells i = if i ≤ WIDTH then 0xFF else m.cells i := by
    rw [Trace.pokes_cells,if_pos (Nat.zero_le i),Nat.sub_zero,List.getElem?_replicate]
    by_cases inside : i ≤ WIDTH
    · simp [inside,Nat.lt_succ_of_le inside]
    · simp [inside,show ¬ i < WIDTH+1 by omega]
  unfold SetHexIn
  simp only [fill_eq,plain,Bool.false_eq_true,if_false]
  rw [decode_eq,Trace.pokes_cells,if_pos (Nat.zero_le i),filled,Nat.sub_zero,Nat.sub_zero]
  rfl

/-- The key that is left is the one that the deer's requests are checked with. -/
theorem SetHexIn_key (m : Trace UInt8) (hex : Text) (WIDTH : Nat) :
    keyIn (SetHexIn m hex WIDTH).1 = SetHex m.cells hex WIDTH ∧ (SetHexIn m hex WIDTH).2 = !(SetHex m.cells hex WIDTH).isEmpty := by
  by_cases ff : startsFf (hex.dropWhile isspace) = true
  · have invalid : SetHexIn m hex WIDTH = ((m.pokes 0 (List.replicate (WIDTH+1) 0xFF)).poke 0 0xFF,false) := by
      simp [SetHexIn,fill_eq,ff]
    have first : GetLen 0xFF = 0 := rfl
    rw [invalid,keyIn,Trace.poke_self,first,SetHex]
    simp [ff]
  · have plain : startsFf (hex.dropWhile isspace) = false := by simpa using ff
    have cells : (SetHexIn m hex WIDTH).1.cells = fun i => (hexBytes hex WIDTH)[i]?.getD (if i ≤ WIDTH then 0xFF else m.cells i) :=
      funext fun i => SetHexIn_cells m hex WIDTH i plain
    have valid : (SetHexIn m hex WIDTH).2 = decide (GetLen ((SetHexIn m hex WIDTH).1.cells 0) > 0) := by
      simp [SetHexIn,plain]
    rw [valid,keyIn,cells,SetHex,if_neg ff]
    refine ⟨rfl,?_⟩
    generalize GetLen ((hexBytes hex WIDTH)[0]?.getD (if 0 ≤ WIDTH then 0xFF else m.cells 0)) = n
    cases n <;> simp [List.range_succ]

theorem GetHex_plain {key : CPubKey} (whole : key.IsWhole) : startsFf ((GetHex key).dropWhile isspace) = false := by
  obtain ⟨chHeader,rest,rfl,sized⟩ := whole
  have all : ∀ b : Fin 256, GetLen (UInt8.ofNat b) ≠ 0 → hexDigit (UInt8.ofNat b >>> 4) ≠ 0x66 := by decide +kernel
  have first := all ⟨chHeader.toNat,chHeader.toNat_lt⟩
  simp only [UInt8.ofNat_toNat] at first
  have zero := first (by rw [← sized,List.length_cons]; omega)
  obtain ⟨_,_,visible,_⟩ := hexOf_digits chHeader
  rw [GetHex,List.flatMap_cons,hexOf,List.cons_append,List.dropWhile_cons_of_neg (by simp [visible]),List.cons_append,startsFf]
  simp [zero]

/-- A valid key comes back from its text, whatever the memory held. -/
theorem SetHex_GetHex (memory : Nat → UInt8) {key : CPubKey} (whole : key.IsWhole) : SetHex memory (GetHex key) key.length = key := by
  have plain := GetHex_plain whole
  obtain ⟨chHeader,rest,rfl,sized⟩ := whole
  have bytes : hexBytes (GetHex (chHeader :: rest)) (chHeader :: rest).length = chHeader :: rest := hexBytes_hex _
  rw [SetHex,if_neg (by simp [plain]),bytes]
  show (List.range (GetLen chHeader)).map _ = _
  rw [← sized]
  refine List.ext_getElem (by simp) fun i inside _ => ?_
  have here : i < (chHeader :: rest).length := by simpa using inside
  rw [List.getElem_map,List.getElem_range,List.getElem?_eq_getElem here]
  rfl

/-- `SetHex` writes from `vch[0]` to `vch[WIDTH]`, and so stays inside the key for texts of
    fewer than 130 characters only; a valid key comes back from its text. -/
theorem SetHex_safe_iff (memory : Nat → UInt8) (s : Text) (m : Trace UInt8) (key : CPubKey) :
    ((∀ i ∈ (HexToPbkIn memory s).1.written, i < 65) ↔ (s.length/2)%2^32 < 65) ∧
    (key.IsWhole → keyIn (SetHexIn m (GetHex key) key.length).1 = key ∧ (SetHexIn m (GetHex key) key.length).2 = true) := by
  refine ⟨?_,fun whole => ?_⟩
  · have places (i : Nat) : i ∈ (HexToPbkIn memory s).1.written ↔ i = 0 ∨ i ≤ (s.length/2)%2^32 := by
      rw [HexToPbkIn,mem_SetHexIn_written,Trace.poke_written,List.mem_singleton]
    constructor
    · intro safe
      exact safe _ ((places _).mpr (.inr le_rfl))
    · intro narrow i written
      have place := (places i).mp written
      omega
  · obtain ⟨left,valid⟩ := SetHexIn_key m (GetHex key) key.length
    rw [SetHex_GetHex m.cells whole] at left valid
    refine ⟨left,valid.trans ?_⟩
    obtain ⟨chHeader,rest,rfl,_⟩ := whole
    rfl

/-- A compressed key. -/
theorem SetHex_safe_compressed :
    keyIn (SetHexIn ⟨fun _ => 0xCC,[]⟩ (GetHex (2 :: List.replicate 32 7)) 33).1 = 2 :: List.replicate 32 7 :=
  ((SetHex_safe_iff (fun _ => 0) [] ⟨fun _ => 0xCC,[]⟩ (2 :: List.replicate 32 7)).2 ⟨2,List.replicate 32 7,rfl,by decide⟩).1

/-- The text of a full key leads one byte beyond it. -/
theorem SetHex_beyond : ¬ ∀ memory s, ∀ i ∈ (HexToPbkIn memory s).1.written, i < 65 := by
  intro safe
  have beyond := safe (fun _ => 0) (GetHex (4 :: List.replicate 64 7)) 65 (by
    rw [HexToPbkIn,mem_SetHexIn_written]
    exact .inr (by decide +kernel))
  contradiction

/-! ### `strToHex` and `charToHex` -/

/-- The bytes that a signature's text stands for, with the memory of `vch` and what was
    written there; `none` where the width, an `int`, is negative. -/
def strToHexIn (memory : Nat → UInt8) (s : Text) : Option (Trace UInt8 × List UInt8) :=
  let WIDTH := intOf ((s.length/2)%2^32)
  if WIDTH < 0 then none
  else
    let m := decode WIDTH.toNat ⟨memory,[]⟩ 0 ((s.dropWhile isspace).takeWhile isHex)
    some (m,(List.range WIDTH.toNat).map m.cells)

/-- `sprintf` for each byte, with the terminator that the next one overwrites. -/
def printBytes (m : Trace UInt8) (i : Nat) : List UInt8 → Trace UInt8
  | [] => m
  | byte :: rest => printBytes (m.pokes i (hexOf byte ++ [0])) (i+2) rest

/-- The text, with the memory of `hex`; `none` where the size of `hex` is no `int` or is
    negative. -/
def charToHexIn (memory : Nat → UInt8) (vuchar : List UInt8) : Option (Trace UInt8 × Text) :=
  let WIDTH := intOf (vuchar.length%2^32)
  if WIDTH < 0 ∨ WIDTH*2 ≥ 2^31 then none
  else
    let m := printBytes ⟨memory,[]⟩ 0 (vuchar.take WIDTH.toNat)
    some (m,(List.range (WIDTH*2).toNat).map m.cells)

theorem strToHexIn_eq (memory : Nat → UInt8) {s : Text} {WIDTH : Nat} (width : intOf ((s.length/2)%2^32) = WIDTH) :
    strToHexIn memory s = some ((⟨memory,[]⟩ : Trace UInt8).pokes 0 (hexBytes s WIDTH),
      (List.range WIDTH).map fun i => (hexBytes s WIDTH)[i]?.getD (memory i)) := by
  have decoded : decode WIDTH ⟨memory,[]⟩ 0 ((s.dropWhile isspace).takeWhile isHex) = (⟨memory,[]⟩ : Trace UInt8).pokes 0 (hexBytes s WIDTH) :=
    decode_eq ..
  unfold strToHexIn
  simp only [width]
  rw [if_neg (by omega),Int.toNat_natCast,decoded]
  congr 2
  refine List.map_congr_left fun i _ => ?_
  rw [Trace.pokes_cells,if_pos (Nat.zero_le i),Nat.sub_zero]

/-- Enough digits leave nothing of what the memory held. -/
theorem strToHexIn_full (memory : Nat → UInt8) {s : Text} {WIDTH : Nat} (width : intOf ((s.length/2)%2^32) = WIDTH)
    (full : (hexBytes s WIDTH).length = WIDTH) :
    strToHexIn memory s = some ((⟨memory,[]⟩ : Trace UInt8).pokes 0 (hexBytes s WIDTH),hexBytes s WIDTH) := by
  rw [strToHexIn_eq memory width]
  congr 2
  refine List.ext_getElem (by simp [full]) fun i inside here => ?_
  rw [List.getElem_map,List.getElem_range,List.getElem?_eq_getElem here]
  rfl

/-- Where the width is an `int`, the bytes are those that a deer's signature is. -/
theorem strToHexIn_bytes (memory : Nat → UInt8) {s : Text} (short : s.length/2 < 2^31) :
    ∃ m, strToHexIn memory s = some (m,strToHex memory s) :=
  ⟨_,strToHexIn_eq memory (by rw [Nat.mod_eq_of_lt (by omega),intOf,if_pos short])⟩

/-- Whatever the memory held, the same bytes come out, and nothing beyond them was written. -/
def Determined (s : Text) : Prop := ∃ v, ∀ memory, ∃ m, strToHexIn memory s = some (m,v) ∧ ∀ i ∈ m.written, i < v.length

/-- The digits that are decoded. -/
def digitsOf (s : Text) : Text := (s.dropWhile isspace).takeWhile isHex

theorem hexBytes_length (s : Text) (WIDTH : Nat) : (hexBytes s WIDTH).length = min WIDTH (((digitsOf s).length+1)/2) := by
  rw [hexBytes,List.length_take,digitBytes_length]
  rfl

theorem determined_iff (s : Text) :
    Determined s ↔ 0 ≤ intOf ((s.length/2)%2^32) ∧ 2*intOf ((s.length/2)%2^32) ≤ (digitsOf s).length+1 := by
  constructor
  · intro ⟨v,same⟩
    have defined : 0 ≤ intOf ((s.length/2)%2^32) := by
      by_contra negative
      obtain ⟨m,gives,_⟩ := same fun _ => 0
      rw [strToHexIn,if_pos (by omega)] at gives
      contradiction
    obtain ⟨WIDTH,width⟩ := Int.eq_ofNat_of_zero_le defined
    refine ⟨defined,?_⟩
    by_contra short
    have sized := hexBytes_length s WIDTH
    have inside : (hexBytes s WIDTH).length < WIDTH := by omega
    -- the first byte without a digit is what the memory held
    have left (memory : Nat → UInt8) : v[(hexBytes s WIDTH).length]? = some (memory (hexBytes s WIDTH).length) := by
      obtain ⟨m,gives,_⟩ := same memory
      rw [strToHexIn_eq memory width] at gives
      obtain ⟨_,rfl⟩ := Prod.mk.inj (Option.some.inj gives)
      rw [List.getElem?_map,List.getElem?_range inside]
      simp
    have zero := left fun _ => 0
    have one := left fun _ => 1
    rw [zero] at one
    contradiction
  · intro ⟨defined,enough⟩
    obtain ⟨WIDTH,width⟩ := Int.eq_ofNat_of_zero_le defined
    have sized := hexBytes_length s WIDTH
    have full : (hexBytes s WIDTH).length = WIDTH := by omega
    refine ⟨hexBytes s WIDTH,fun memory => ⟨_,strToHexIn_full memory width full,fun i written => ?_⟩⟩
    rcases (Trace.mem_pokes_written ..).mp written with old | new
    · simp at old
    · omega

/-! ### Printing -/

theorem printBytes_cells (m : Trace UInt8) (i : Nat) (bytes : List UInt8) {j : Nat} (inside : j < i+2*bytes.length) :
    (printBytes m i bytes).cells j = if i ≤ j then (bytes.flatMap hexOf)[j-i]?.getD 0 else m.cells j := by
  induction bytes generalizing m i with
  | nil =>
    rw [List.length_nil] at inside
    rw [printBytes,if_neg (by omega)]
  | cons byte bytes ih =>
    rw [List.length_cons] at inside
    rw [printBytes,ih _ _ (by omega),List.flatMap_cons,hexOf]
    by_cases later : i+2 ≤ j
    · rw [if_pos later,if_pos (by omega),show j-i = j-(i+2)+1+1 by omega]
      rfl
    · rw [if_neg later,Trace.pokes_cells]
      by_cases here : i ≤ j
      · rw [if_pos here,if_pos here]
        obtain rfl | rfl : j = i ∨ j = i+1 := by omega
        · simp
        · simp
      · rw [if_neg here,if_neg here]

theorem mem_printBytes_written (m : Trace UInt8) (i : Nat) (bytes : List UInt8) (j : Nat) :
    j ∈ (printBytes m i bytes).written ↔ j ∈ m.written ∨ bytes ≠ [] ∧ i ≤ j ∧ j ≤ i+2*bytes.length := by
  induction bytes generalizing m i with
  | nil => simp [printBytes]
  | cons byte bytes ih =>
    rw [printBytes,ih,Trace.mem_pokes_written,List.length_cons]
    have three : (hexOf byte ++ [0]).length = 3 := rfl
    rw [three]
    cases bytes with
    | nil =>
      simp only [List.length_nil]
      grind
    | cons next bytes =>
      simp only [List.length_cons]
      grind

theorem charToHexIn_eq (memory : Nat → UInt8) {v : List UInt8} {WIDTH : Nat} (width : intOf (v.length%2^32) = WIDTH) (small : WIDTH < 2^30) :
    charToHexIn memory v = some (printBytes ⟨memory,[]⟩ 0 (v.take WIDTH),(v.take WIDTH).flatMap hexOf) := by
  have few : WIDTH ≤ v.length := by
    unfold intOf at width
    split at width <;> omega
  have taken : (v.take WIDTH).length = WIDTH := List.length_take_of_le few
  unfold charToHexIn
  simp only [width]
  rw [if_neg (by omega),Int.toNat_natCast]
  congr 2
  refine List.ext_getElem (by rw [hex_length,taken]; simp; omega) fun j inside here => ?_
  rw [hex_length,taken] at here
  rw [List.getElem_map,List.getElem_range,printBytes_cells _ _ _ (by omega),if_pos (Nat.zero_le j),Nat.sub_zero,
    List.getElem?_eq_getElem (by rw [hex_length]; omega)]
  rfl

/-- The text is written inside `hex`, and stands for the bytes again. -/
def PrintsInside (v : List UInt8) : Prop :=
  ∃ text, (∀ memory, ∃ m, charToHexIn memory v = some (m,text) ∧ ∀ i ∈ m.written, i < text.length) ∧
    ∀ memory, ∃ m, strToHexIn memory text = some (m,v)

theorem printsInside_iff (v : List UInt8) : PrintsInside v ↔ v = [] := by
  constructor
  · intro ⟨text,prints,back⟩
    obtain ⟨m,gives,inside⟩ := prints fun _ => 0
    have defined : 0 ≤ intOf (v.length%2^32) ∧ intOf (v.length%2^32)*2 < 2^31 := by
      by_contra outside
      rw [charToHexIn,if_pos (by omega)] at gives
      contradiction
    obtain ⟨WIDTH,width⟩ := Int.eq_ofNat_of_zero_le defined.1
    rw [charToHexIn_eq _ width (by omega)] at gives
    obtain ⟨rfl,rfl⟩ := Prod.mk.inj (Option.some.inj gives)
    have nothing : v.take WIDTH = [] := by
      by_contra some'
      have last := inside _ ((mem_printBytes_written ..).mpr (.inr ⟨some',Nat.zero_le _,le_rfl⟩))
      rw [hex_length] at last
      omega
    obtain ⟨m',decoded⟩ := back fun _ => 0
    rw [nothing] at decoded
    exact (congrArg Prod.snd (Option.some.inj decoded)).symm
  · rintro rfl
    exact ⟨[],fun memory => ⟨⟨memory,[]⟩,rfl,by simp⟩,fun memory => ⟨⟨memory,[]⟩,rfl⟩⟩

/-- As a value, every text of fewer than 2^30 bytes stands for them again. -/
theorem strToHex_charToHex {v : List UInt8} (short : v.length < 2^30) (memory memory' : Nat → UInt8) :
    ∃ m m', charToHexIn memory v = some (m,v.flatMap hexOf) ∧ strToHexIn memory' (v.flatMap hexOf) = some (m',v) := by
  have width : intOf (v.length%2^32) = v.length := by
    rw [Nat.mod_eq_of_lt (by omega),intOf,if_pos (by omega)]
  have width' : intOf (((v.flatMap hexOf).length/2)%2^32) = v.length := by
    rw [hex_length,Nat.mul_div_cancel_left _ (by decide)]
    exact width
  have printed := charToHexIn_eq memory width short
  have back : hexBytes (v.flatMap hexOf) v.length = v := hexBytes_hex v
  have decoded := strToHexIn_full memory' width' (by rw [back])
  rw [List.take_length] at printed
  rw [back] at decoded
  exact ⟨_,_,printed,decoded⟩

/-- `strToHex` is determined by its text exactly if there are digits enough for its width;
    `charToHex` stays inside its buffer for no bytes only, and its text is right. -/
theorem strToHex_determined_iff (s : Text) (v : List UInt8) (memory memory' : Nat → UInt8) :
    (Determined s ↔ 0 ≤ intOf ((s.length/2)%2^32) ∧ 2*intOf ((s.length/2)%2^32) ≤ (digitsOf s).length+1) ∧
    (PrintsInside v ↔ v = []) ∧
    (v.length < 2^30 → ∃ m m', charToHexIn memory v = some (m,v.flatMap hexOf) ∧ strToHexIn memory' (v.flatMap hexOf) = some (m',v)) :=
  ⟨determined_iff s,printsInside_iff v,fun short => strToHex_charToHex short memory memory'⟩

/-- "0aff" has digits enough, and stands for the two bytes that it is printed from. -/
theorem strToHex_determined_sample : Determined [0x30,0x61,0x66,0x66] ∧
    ∃ m m', charToHexIn (fun _ => 0xCC) [0x0A,0xFF] = some (m,[0x30,0x61,0x66,0x66]) ∧
      strToHexIn (fun _ => 0xCC) [0x30,0x61,0x66,0x66] = some (m',[0x0A,0xFF]) :=
  ⟨(strToHex_determined_iff [0x30,0x61,0x66,0x66] [] (fun _ => 0) (fun _ => 0)).1.mpr (by decide),
    (strToHex_determined_iff [] [0x0A,0xFF] (fun _ => 0xCC) (fun _ => 0xCC)).2.2 (by decide)⟩

/-- "zz" gives the byte that the memory held, and the text of one byte is three characters
    in a buffer of two. -/
theorem strToHex_undetermined : (¬ ∀ s, Determined s) ∧ ¬ ∀ v, PrintsInside v :=
  ⟨fun all => absurd ((determined_iff [0x7A,0x7A]).mp (all _)) (by decide),fun all => absurd ((printsInside_iff [0xAB]).mp (all _)) (by decide)⟩

end Tetra.Deer
