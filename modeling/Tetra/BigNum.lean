import Tetra.Buffer
import Tetra.Positional
import Tetra.ScriptValues

/-!
Big numbers to and from machine integers and bytes: the class fills buffers in the format of
the library it wraps, and the library is not part of the sources.
-/
namespace Tetra
open Codec Positional Buffer

/-! ### The abstract conversions -/

theorem leBytes_eq_bytesOf {k n : Nat} (low : 256^k ≤ n) (high : n < 256^(k+1)) : leBytes (k+1) n = bytesOf n := by
  induction k generalizing n with
  | zero =>
    have small : n < 256 := by simpa using high
    rw [leBytes,leBytes,bytesOf,Nat.digits_of_lt 256 n (by rw [Nat.pow_zero] at low; omega) small]
    rfl
  | succ k ih =>
    have lowRest : 256^k ≤ n/256 := by
      rw [Nat.le_div_iff_mul_le (by omega)]
      rwa [← Nat.pow_succ]
    have highRest : n/256 < 256^(k+1) := by
      rw [Nat.div_lt_iff_lt_mul (by omega)]
      rwa [← Nat.pow_succ]
    have positive : 0 < n := (Nat.pow_pos (by omega)).trans_le low
    rw [leBytes,ih lowRest highRest,bytesOf,bytesOf,Nat.digits_def' (by omega) positive,List.map_cons]
    congr 1
    exact UInt8.toNat_inj.mp (by simp)

theorem leBytes_log2 {n : Nat} (nonzero : n ≠ 0) : leBytes (n.log2/8+1) n = bytesOf n := by
  apply leBytes_eq_bytesOf
  · rw [show 256 = 2^8 from rfl,← Nat.pow_mul]
    exact (Nat.pow_le_pow_right (by omega) (Nat.mul_div_le ..)).trans (Nat.log2_self_le nonzero)
  · rw [show 256 = 2^8 from rfl,← Nat.pow_mul]
    exact Nat.lt_log2_self.trans_le (Nat.pow_le_pow_right (by omega) (by omega))

theorem getvch_eq (n : Int) : getvch n = (signedBytes n).reverse := by
  unfold getvch
  split
  next zero =>
    subst zero
    rfl
  next nonzero =>
    dsimp only
    rw [leBytes_log2 (by omega),signedBytes]
    cases digits : (bytesOf n.natAbs).reverse with
    | nil =>
      rw [List.reverse_eq_nil_iff,bytesOf_eq_nil] at digits
      omega
    | cons first rest =>
      have bytes : bytesOf n.natAbs = rest.reverse ++ [first] := by rw [← List.reverse_reverse (bytesOf _),digits,List.reverse_cons]
      rw [bytes,List.getLast?_concat,signed]
      dsimp only
      split
      · simp
      · simp

theorem setvch_eq (vch : valtype) : setvch vch = signedValue vch.reverse := by
  cases reversed : vch.reverse with
  | nil =>
    obtain rfl := List.reverse_eq_nil_iff.mp reversed
    rfl
  | cons last front =>
    have bytes : vch = front.reverse ++ [last] := by rw [← List.reverse_reverse vch,reversed,List.reverse_cons]
    rw [bytes,setvch,List.getLast?_concat]
    dsimp only
    rw [List.dropLast_concat,signedValue,negative,magnitude,List.reverse_cons]
    simp

/-! ### The library -/

/-- What the class uses of the library; `holds` are the numbers there is room for. -/
structure BigNumLibrary where
  holds : Int → Prop
  BN_bn2mpi : Int → List UInt8
  BN_mpi2bn : List UInt8 → Option Int

/-- The format: four bytes for the length and a magnitude with its sign, the most significant
    byte first. -/
structure BigNumLibrary.Mpi (ssl : BigNumLibrary) : Prop where
  small : ∀ x, x.natAbs < 2^256 → ssl.holds x
  length : ∀ x, ssl.holds x → (signedBytes x).length+4 < 2^31
  writes : ∀ x, ssl.holds x → ssl.BN_bn2mpi x = (leBytes 4 (signedBytes x).length).reverse ++ signedBytes x
  reads : ∀ bytes, bytes.length < 2^32 → ssl.holds (signedValue bytes) →
    ssl.BN_mpi2bn ((leBytes 4 bytes.length).reverse ++ bytes) = some (signedValue bytes)

namespace CBigNum

/-- The four bytes of a size that stand in front of a buffer. -/
def sizeBytes (nSize : Nat) : List UInt8 := [UInt8.ofNat (nSize >>> 24),UInt8.ofNat (nSize >>> 16),UInt8.ofNat (nSize >>> 8),UInt8.ofNat nSize]

/-- Writes bytes from `p` on, the most significant first, without the zeros in front and with
    the sign in the first. -/
def emit (fNegative : Bool) : List UInt8 → Bool → Trace UInt8 × Nat → Trace UInt8 × Nat
  | [], _, pch => pch
  | c :: cs, fLeadingZeroes, (pch,p) =>
    if fLeadingZeroes then
      if c = 0 then emit fNegative cs true (pch,p)
      else if c &&& 0x80 ≠ 0 then emit fNegative cs false ((pch.poke p (if fNegative then 0x80 else 0)).poke (p+1) c,p+2)
      else emit fNegative cs false (pch.poke p (if fNegative then c ||| 0x80 else c),p+1)
    else emit fNegative cs false (pch.poke p c,p+1)

/-- The eight bytes of a number as they are shifted out at the top. -/
def topBytes : Nat → UInt64 → List UInt8
  | 0, _ => []
  | i+1, n => (n >>> 56).toUInt8 :: topBytes i (n <<< 8)

variable (ssl : BigNumLibrary)

/-- A number in a buffer, and the buffer; a library that fails leaves the number as it was. -/
def build (fNegative : Bool) (bytes : List UInt8) (memory : Nat → UInt8) (this : Int) : Int × Trace UInt8 :=
  let (pch,p) := emit fNegative bytes true (⟨memory,[]⟩,4)
  let pch := pch.pokes 0 (sizeBytes (p-4))
  ((ssl.BN_mpi2bn ((List.range p).map pch.cells)).getD this,pch)

def setint64 (sn : Int64) (memory : Nat → UInt8) (this : Int) : Int × Trace UInt8 :=
  if sn < 0 then
    let n := (-(sn+1)).toUInt64
    let n := n+1
    build ssl true (topBytes 8 n) memory this
  else build ssl false (topBytes 8 sn.toUInt64) memory this

def setuint64 (n : UInt64) (memory : Nat → UInt8) (this : Int) : Int × Trace UInt8 := build ssl false (topBytes 8 n) memory this

/-- The bytes of the number are taken from its end. -/
def setuint256 (n : Nat) (memory : Nat → UInt8) (this : Int) : Int × Trace UInt8 := build ssl false (leBytes 32 n).reverse memory this

/-- Takes bytes from the end of a vector while they are not of the length in front. -/
def copyBack (vch : List UInt8) : Nat → Nat → Option (List UInt8)
  | 0, _ => some []
  | i+1, j => do
    if 4 ≤ j then
      let byte ← vch[j]?
      let bytes ← copyBack vch i (j-1)
      return byte :: bytes
    else return []

/-- `none` is a read outside the vector. -/
def getuint256 (x : Int) : Option Nat := do
  let vch := ssl.BN_bn2mpi x
  if vch.length < 4 then return 0
  let vch := if vch.length > 4 then vch.modify 4 (· &&& 0x7f) else vch
  let bytes ← copyBack vch 32 (vch.length-1)
  return leNat bytes

/-- The number and the vector that was filled for it, of four bytes more than the argument. -/
def setvch (vch : List UInt8) (this : Int) : Int × Trace UInt8 :=
  let vch2 : Trace UInt8 := ⟨fun _ => 0,[]⟩
  let vch2 := vch2.pokes 0 (sizeBytes (vch.length % 2^32))
  let vch2 := vch2.pokes 4 vch.reverse
  ((ssl.BN_mpi2bn ((List.range (vch.length+4)).map vch2.cells)).getD this,vch2)

def getvch (x : Int) : List UInt8 :=
  let vch := ssl.BN_bn2mpi x
  if vch.length ≤ 4 then [] else (vch.drop 4).reverse

/-! ### What is in the buffers -/

theorem sizeBytes_eq (nSize : Nat) : sizeBytes nSize = (leBytes 4 nSize).reverse := by
  simp [sizeBytes,leBytes,Nat.shiftRight_eq_div_pow,Nat.div_div_eq_div_mul]

theorem emit_rest (fNegative : Bool) (cs : List UInt8) (pch : Trace UInt8) (p : Nat) :
    emit fNegative cs false (pch,p) = (pch.pokes p cs,p+cs.length) := by
  induction cs generalizing pch p with
  | nil => rfl
  | cons c cs ih =>
    rw [emit,if_neg (by simp),ih,Trace.pokes,List.length_cons]
    congr 1
    omega

theorem emit_eq (fNegative : Bool) (cs : List UInt8) (pch : Trace UInt8) (p : Nat) :
    emit fNegative cs true (pch,p) =
      (pch.pokes p (signed fNegative (cs.dropWhile (· = 0))),p+(signed fNegative (cs.dropWhile (· = 0))).length) := by
  induction cs with
  | nil => rfl
  | cons c cs ih =>
    rw [emit,if_pos rfl]
    by_cases zero : c = 0
    · rw [if_pos zero,ih,List.dropWhile_cons_of_pos (by simpa using zero)]
    · rw [if_neg zero,List.dropWhile_cons_of_neg (by simpa using zero),signed]
      split
      · rw [emit_rest,Trace.pokes,Trace.pokes,List.length_cons,List.length_cons]
        congr 1
        omega
      next top =>
        have clear := ((sign_bit c).2.1 (by simpa using top)).2.1
        rw [emit_rest,Trace.pokes,List.length_cons]
        cases fNegative
        · rw [if_neg (by simp),if_neg (by simp),clear]
          congr 1
          omega
        · rw [if_pos rfl,if_pos rfl]
          congr 1
          omega

/-- What is filled in is the size and the number. -/
theorem build_value (fNegative : Bool) (bytes : List UInt8) (memory : Nat → UInt8) (this : Int) :
    (build ssl fNegative bytes memory this).1 =
      (ssl.BN_mpi2bn (sizeBytes (signed fNegative (bytes.dropWhile (· = 0))).length ++ signed fNegative (bytes.dropWhile (· = 0)))).getD this := by
  rw [build,emit_eq]
  dsimp only
  rw [Nat.add_sub_cancel_left]
  congr 2
  have read := Trace.read_pokes (⟨memory,[]⟩ : Trace UInt8)
    (sizeBytes (signed fNegative (bytes.dropWhile (· = 0))).length ++ signed fNegative (bytes.dropWhile (· = 0)))
  rw [← Trace.pokes_front,List.length_append] at read
  exact read

theorem build_written {fNegative : Bool} {bytes : List UInt8} {memory : Nat → UInt8} {this : Int} {i : Nat}
    (written : i ∈ (build ssl fNegative bytes memory this).2.written) : i < bytes.length+6 := by
  rw [build,emit_eq] at written
  dsimp only at written
  rw [Trace.mem_pokes_written,Trace.mem_pokes_written] at written
  have short := signed_length_le fNegative (bytes.dropWhile (· = 0))
  have fewer := (List.dropWhile_sublist (l := bytes) (· = 0)).length_le
  simp [sizeBytes] at written
  omega

theorem setvch_written {vch : List UInt8} {this : Int} {i : Nat} (written : i ∈ (setvch ssl vch this).2.written) : i < vch.length+4 := by
  rw [setvch] at written
  dsimp only at written
  rw [Trace.mem_pokes_written,Trace.mem_pokes_written] at written
  simp [sizeBytes] at written
  omega

theorem topBytes_eq (n : UInt64) : topBytes 8 n = (leBytes 8 n.toNat).reverse := by
  have bits : ∀ m : UInt64, ∀ k : Nat, (m >>> 56).toUInt8 = UInt8.ofNat k ↔ m.toNat/2^56 % 256 = k % 256 := by
    intro m k
    rw [← UInt8.toNat_inj]
    simp [Nat.shiftRight_eq_div_pow]
  simp only [topBytes,leBytes,List.reverse_cons,List.reverse_nil,List.nil_append,List.cons_append,List.cons.injEq,and_true,bits]
  simp only [UInt64.toNat_shiftLeft]
  simp [Nat.shiftLeft_eq]
  omega

theorem signed_bytesOf (negative : Bool) (n : Nat) : signed negative (bytesOf n).reverse = signedBytes (if negative then -n else n) := by
  by_cases zero : n = 0
  · subst zero
    cases negative <;> rfl
  · cases negative
    · rw [if_neg (by simp),signedBytes,Int.natAbs_natCast,decide_eq_false (by omega)]
    · rw [if_pos rfl,signedBytes,Int.natAbs_neg,Int.natAbs_natCast,decide_eq_true (by omega)]

/-! ### The numbers that are built -/

variable {ssl}

/-- A number that is built of its bytes is that number. -/
theorem build_exact (mpi : ssl.Mpi) (fNegative : Bool) {k n : Nat} (fits : n < 256^k) (size : k ≤ 32) (memory : Nat → UInt8) (this : Int) :
    (build ssl fNegative (leBytes k n).reverse memory this).1 = if fNegative then -(n : Int) else n := by
  have skipped := bytesOf_leNat (leBytes k n).reverse
  rw [List.reverse_reverse,leNat_leBytes fits] at skipped
  have small : (if fNegative then -(n : Int) else n).natAbs < 2^256 := by
    have bound : n < 256^32 := fits.trans_le (Nat.pow_le_pow_right (by omega) size)
    rw [show (2:Nat)^256 = 256^32 by norm_num]
    cases fNegative
    · simpa using bound
    · simpa using bound
  have holds := mpi.small _ small
  have length := mpi.length _ holds
  rw [build_value,← skipped,signed_bytesOf,sizeBytes_eq]
  have reads := mpi.reads (signedBytes (if fNegative then -(n : Int) else n)) (by omega)
  rw [signedValue_signedBytes] at reads
  rw [reads holds,Option.getD_some]

theorem setuint64_exact (mpi : ssl.Mpi) (n : UInt64) (memory : Nat → UInt8) (this : Int) : (setuint64 ssl n memory this).1 = n.toNat := by
  rw [setuint64,topBytes_eq,build_exact mpi false n.toNat_lt (by omega)]
  rfl

theorem toNat_of_nonneg {sn : Int64} (positive : 0 ≤ sn.toInt) : (sn.toUInt64.toNat : Int) = sn.toInt := by
  change 0 ≤ sn.toBitVec.toInt at positive
  change (sn.toBitVec.toNat : Int) = sn.toBitVec.toInt
  rw [BitVec.toInt_eq_toNat_cond] at positive ⊢
  split at positive
  · rw [if_pos ‹_›]
  · have small := sn.toBitVec.isLt
    omega

/-- The most negative number is counted up before its sign is changed. -/
theorem toNat_of_neg {sn : Int64} (negative : sn.toInt < 0) : ((-(sn+1)).toUInt64+1).toNat = sn.toInt.natAbs := by
  have cancelled : -(sn.toBitVec+1)+1 = -sn.toBitVec := by ring
  change sn.toBitVec.toInt < 0 at negative
  change (-(sn.toBitVec+1)+1).toNat = sn.toBitVec.toInt.natAbs
  rw [cancelled,BitVec.toNat_neg]
  rw [BitVec.toInt_eq_toNat_cond] at negative ⊢
  have small := sn.toBitVec.isLt
  split at negative
  · omega
  · rw [if_neg ‹_›]
    omega

theorem setint64_exact (mpi : ssl.Mpi) (sn : Int64) (memory : Nat → UInt8) (this : Int) : (setint64 ssl sn memory this).1 = sn.toInt := by
  have zero : (0 : Int64).toInt = 0 := rfl
  rw [setint64]
  split
  next negative =>
    rw [Int64.lt_iff_toInt_lt,zero] at negative
    dsimp only
    rw [topBytes_eq,build_exact mpi true (UInt64.toNat_lt _) (by omega),toNat_of_neg negative,if_pos rfl]
    omega
  next positive =>
    rw [Int64.lt_iff_toInt_lt,zero] at positive
    rw [topBytes_eq,build_exact mpi false (UInt64.toNat_lt _) (by omega),if_neg (by simp),toNat_of_nonneg (by omega)]

theorem setuint256_exact (mpi : ssl.Mpi) {n : Nat} (fits : n < 2^256) (memory : Nat → UInt8) (this : Int) :
    (setuint256 ssl n memory this).1 = n := by
  rw [setuint256,build_exact mpi false (by rwa [show (256:Nat)^32 = 2^256 by norm_num]) le_rfl]
  rfl

/-! ### What is read of a number -/

/-- From the end of the vector to the length in front. -/
theorem copyBack_eq {front : List UInt8} (four : front.length = 4) (body back : List UInt8) (i : Nat) :
    copyBack (front ++ body ++ back) i (3+body.length) = some (body.reverse.take i) := by
  induction body using List.reverseRecOn generalizing back i with
  | nil =>
    cases i with
    | zero => rfl
    | succ i => rfl
  | append_singleton body last ih =>
    cases i with
    | zero => rfl
    | succ i =>
      have inside : (front ++ (body ++ [last]) ++ back)[3+(body ++ [last]).length]? = some last := by
        rw [List.append_assoc,List.getElem?_append_right (by simp; omega),four,List.append_assoc,
          List.getElem?_append_right (by simp; omega),List.length_append,List.length_singleton]
        rw [show 3+(body.length+1)-4-body.length = 0 by omega]
        rfl
      have rest := ih ([last] ++ back) i
      rw [← List.append_assoc,List.append_assoc front] at rest
      rw [copyBack,if_pos (by simp; omega),inside]
      simp only [Option.bind_eq_bind,Option.bind_some]
      rw [show 3+(body ++ [last]).length-1 = 3+body.length by simp,rest]
      simp

theorem bn2mpi_length (mpi : ssl.Mpi) {x : Int} (holds : ssl.holds x) : (ssl.BN_bn2mpi x).length = 4+(signedBytes x).length := by
  rw [mpi.writes x holds,List.length_append,List.length_reverse,leBytes_length]

theorem modify_four {front : List UInt8} (four : front.length = 4) (first : UInt8) (rest : List UInt8) (f : UInt8 → UInt8) :
    (front ++ first :: rest).modify 4 f = front ++ f first :: rest := by
  match front, four with
  | [_,_,_,_], _ => rfl

/-- What does not fit is cut off, and the sign with it. -/
theorem getuint256_eq (mpi : ssl.Mpi) {x : Int} (holds : ssl.holds x) : getuint256 ssl x = some (x.natAbs % 2^256) := by
  have length := bn2mpi_length mpi holds
  have four : ((leBytes 4 (signedBytes x).length).reverse).length = 4 := by rw [List.length_reverse,leBytes_length]
  have whole := magnitude_signedBytes x
  rw [getuint256]
  dsimp only
  rw [if_neg (by omega)]
  rw [mpi.writes x holds] at length ⊢
  generalize (leBytes 4 (signedBytes x).length).reverse = front at *
  generalize signedBytes x = bytes at *
  cases bytes with
  | nil =>
    have copied := copyBack_eq four [] [] 32
    rw [List.append_nil] at copied
    rw [if_neg (by rw [length]; simp),length,show 4+([] : List UInt8).length-1 = 3+([] : List UInt8).length from rfl,copied,← whole]
    rfl
  | cons first rest =>
    have copied := copyBack_eq four ((first &&& 0x7f) :: rest) [] 32
    rw [List.append_nil] at copied
    rw [if_pos (by rw [length,List.length_cons]; omega),modify_four four]
    have last : (front ++ (first &&& 0x7f) :: rest).length-1 = 3+((first &&& 0x7f) :: rest).length := by
      rw [List.length_append,four]
      omega
    rw [last,copied,← whole,magnitude]
    simp only [Option.bind_eq_bind,Option.bind_some]
    rw [leNat_take,show (256:Nat)^32 = 2^256 by norm_num]
    rfl

theorem getvch_eq (mpi : ssl.Mpi) {x : Int} (holds : ssl.holds x) : getvch ssl x = Tetra.getvch x := by
  have length := bn2mpi_length mpi holds
  rw [getvch,Tetra.getvch_eq]
  split
  next short =>
    have none : (signedBytes x).length = 0 := by omega
    rw [List.length_eq_zero_iff.mp none]
    rfl
  next long =>
    rw [mpi.writes x holds,List.drop_left' (by rw [List.length_reverse,leBytes_length])]

theorem setvch_eq (mpi : ssl.Mpi) {vch : List UInt8} (size : vch.length < 2^32) (holds : ssl.holds (Tetra.setvch vch)) (this : Int) :
    (setvch ssl vch this).1 = Tetra.setvch vch := by
  rw [Tetra.setvch_eq] at holds ⊢
  have reads := mpi.reads vch.reverse (by rwa [List.length_reverse]) holds
  rw [List.length_reverse,← sizeBytes_eq] at reads
  have filled := Trace.read_pokes (⟨fun _ => 0,[]⟩ : Trace UInt8) (sizeBytes vch.length ++ vch.reverse)
  have four : (sizeBytes vch.length).length = 4 := rfl
  rw [Trace.pokes_append,List.length_append,List.length_reverse,four] at filled
  rw [setvch,Nat.mod_eq_of_lt size]
  dsimp only
  rw [Nat.add_comm,filled,reads,Option.getD_some]

/-- Stands for the number, as nothing shorter does and nothing else of its length. -/
def Shortest (vch : List UInt8) (x : Int) : Prop :=
  Tetra.setvch vch = x ∧ ∀ other, Tetra.setvch other = x → vch.length ≤ other.length ∧ (other.length = vch.length → other = vch)

theorem getvch_shortest (mpi : ssl.Mpi) {x : Int} (holds : ssl.holds x) : Shortest (getvch ssl x) x := by
  rw [getvch_eq mpi holds,Tetra.getvch_eq]
  refine ⟨by rw [Tetra.setvch_eq,List.reverse_reverse,signedValue_signedBytes],fun other same => ?_⟩
  rw [Tetra.setvch_eq] at same
  obtain ⟨shorter,only⟩ := signedBytes_shortest other.reverse
  rw [same,List.length_reverse] at shorter only
  rw [List.length_reverse]
  exact ⟨shorter,fun length => List.reverse_eq_iff.mp (only length)⟩

theorem setvch_getvch (mpi : ssl.Mpi) {x : Int} (holds : ssl.holds x) (this : Int) : (setvch ssl (getvch ssl x) this).1 = x := by
  have value := (getvch_shortest mpi holds).1
  have length := mpi.length x holds
  have bytes : (getvch ssl x).length = (signedBytes x).length := by rw [getvch_eq mpi holds,Tetra.getvch_eq,List.length_reverse]
  rw [setvch_eq mpi (by omega) (by rwa [value]),value]

variable (ssl)

/-- Numbers go to and from machine integers and bytes unchanged, and what is written stays in
    the buffers, of six bytes more than an integer and of four more than a vector. -/
theorem conversions (mpi : ssl.Mpi) :
    (∀ (sn : Int64) (memory : Nat → UInt8) (this : Int), (setint64 ssl sn memory this).1 = sn.toInt ∧
      ∀ i ∈ (setint64 ssl sn memory this).2.written, i < 8+6) ∧
    (∀ (n : UInt64) (memory : Nat → UInt8) (this : Int), (setuint64 ssl n memory this).1 = n.toNat ∧
      ∀ i ∈ (setuint64 ssl n memory this).2.written, i < 8+6) ∧
    (∀ n < 2^256, ∀ (memory : Nat → UInt8) (this : Int), getuint256 ssl (setuint256 ssl n memory this).1 = some n ∧
      ∀ i ∈ (setuint256 ssl n memory this).2.written, i < 32+6) ∧
    ∀ x, ssl.holds x → (getuint256 ssl x).isSome ∧ Shortest (getvch ssl x) x ∧
      ∀ this, (setvch ssl (getvch ssl x) this).1 = x ∧ ∀ i ∈ (setvch ssl (getvch ssl x) this).2.written, i < (getvch ssl x).length+4 := by
  have eight (n : UInt64) : (topBytes 8 n).length = 8 := by rw [topBytes_eq,List.length_reverse,leBytes_length]
  refine ⟨fun sn memory this => ⟨setint64_exact mpi sn memory this,fun i written => ?_⟩,
    fun n memory this => ⟨setuint64_exact mpi n memory this,fun i written => ?_⟩,fun n fits memory this => ⟨?_,fun i written => ?_⟩,fun x holds => ?_⟩
  · rw [setint64] at written
    split at written
    · simpa only [eight] using build_written ssl written
    · simpa only [eight] using build_written ssl written
  · rw [setuint64] at written
    simpa only [eight] using build_written ssl written
  · have held := mpi.small n (by simpa using fits)
    rw [setuint256_exact mpi fits,getuint256_eq mpi held,Int.natAbs_natCast,Nat.mod_eq_of_lt fits]
  · rw [setuint256] at written
    simpa using build_written ssl written
  · refine ⟨by rw [getuint256_eq mpi holds]; rfl,getvch_shortest mpi holds,fun this => ⟨setvch_getvch mpi holds this,fun i written => ?_⟩⟩
    exact setvch_written ssl written

/-- A library with room for numbers of less than two gigabytes. -/
def roomy : BigNumLibrary where
  holds x := (signedBytes x).length+4 < 2^31
  BN_bn2mpi x := (leBytes 4 (signedBytes x).length).reverse ++ signedBytes x
  BN_mpi2bn bytes := if 4 ≤ bytes.length ∧ leNat (bytes.take 4).reverse = bytes.length-4 then some (signedValue (bytes.drop 4)) else none

theorem conversions_roomy : getuint256 roomy (setuint256 roomy (2^255) (fun _ => 0) 0).1 = some (2^255) ∧ (setint64 roomy Int64.minValue (fun _ => 0) 0).1 = -2^63 := by
  have all := conversions roomy ⟨fun x small => ?_,fun _ room => room,fun _ _ => rfl,fun bytes short _ => ?_⟩
  · exact ⟨(all.2.2.1 (2^255) (by omega) (fun _ => 0) 0).1,(all.1 Int64.minValue (fun _ => 0) 0).1⟩
  · have length := signed_length_le (decide (x < 0)) (bytesOf x.natAbs).reverse
    have digits := bytesOf_length_le (k := 32) (by rwa [show (256:Nat)^32 = 2^256 by norm_num])
    rw [List.length_reverse] at length
    change (signed _ _).length+4 < 2^31
    omega
  · have four : ((leBytes 4 bytes.length).reverse).length = 4 := by rw [List.length_reverse,leBytes_length]
    change (if _ then _ else _) = _
    rw [List.take_left' four,List.drop_left' four,if_pos]
    rw [List.length_append,four,List.reverse_reverse,leNat_leBytes (by omega)]
    omega

end CBigNum

end Tetra
