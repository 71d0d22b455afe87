import Mathlib
import Tetra.VarInts

/-!
Scripts in their compact forms: which scripts have a special form, that the form gives
back the script that it came from, and how long scripts may be.
-/
namespace Tetra.CScriptCompressor
open Codec

variable (keys : KeyRules)

/-- Reads into a script with what it held before. -/
def UnserializeInto (script : CScript) : Unserializer CScript := do
  let nSize ← ReadVarInt
  if nSize < nSpecialScripts then
    let vch ← readData (GetSpecialSize nSize)
    return Decompress keys nSize vch script
  else readData (nSize-nSpecialScripts)

/-- A new script is read into the empty one. -/
theorem UnserializeInto_nil : UnserializeInto keys [] = Unserialize keys := rfl

/-! ### The special forms -/

theorem IsToKeyID_sizes {script hash : List UInt8} (found : IsToKeyID script = some hash) : script.length = 25 ∧ hash.length = 20 := by
  unfold IsToKeyID at found
  split at found
  next shape =>
    rw [← Option.some.inj found,List.length_take,List.length_drop,shape.1]
    exact ⟨rfl,rfl⟩
  · contradiction

theorem IsToScriptID_sizes {script hash : List UInt8} (found : IsToScriptID script = some hash) : script.length = 23 ∧ hash.length = 20 := by
  unfold IsToScriptID at found
  split at found
  next shape =>
    rw [← Option.some.inj found,List.length_take,List.length_drop,shape.1]
    exact ⟨rfl,rfl⟩
  · contradiction

theorem PaysKey.length_le {keys : KeyRules} {script : CScript} {pubkey : CPubKey} (pays : PaysKey keys script pubkey) : script.length ≤ 67 := by
  cases pays with
  | compressed header x sized kind key shape => simp [shape,sized]
  | full x y sized key valid shape => simp [shape,key,sized]

/-- The last bit of a byte. -/
theorem low_bit (byte : UInt8) : byte &&& 0x01 = 0 ∨ byte &&& 0x01 = 1 := by
  have all : ∀ b : Fin 256, UInt8.ofNat b &&& 0x01 = 0 ∨ UInt8.ofNat b &&& 0x01 = 1 := by decide +kernel
  have here := all ⟨byte.toNat,byte.toNat_lt⟩
  rwa [UInt8.ofNat_toNat] at here

/-- A special form is a kind and the data of that kind, and its script is a short one. -/
theorem Compress_parts {script : CScript} {compr : List UInt8} (special : Compress keys script = some compr) :
    script.length ≤ 67 ∧ ∃ kind data, kind < nSpecialScripts ∧ compr = UInt8.ofNat kind :: data ∧ data.length = GetSpecialSize kind := by
  unfold Compress at special
  cases keyID : IsToKeyID script with
  | some hash =>
    obtain ⟨long,sized⟩ := IsToKeyID_sizes keyID
    simp only [keyID,Option.some.injEq] at special
    exact ⟨by omega,0,hash,by decide,special.symm,sized⟩
  | none =>
    cases scriptID : IsToScriptID script with
    | some hash =>
      obtain ⟨long,sized⟩ := IsToScriptID_sizes scriptID
      simp only [keyID,scriptID,Option.some.injEq] at special
      exact ⟨by omega,1,hash,by decide,special.symm,sized⟩
    | none =>
      cases found : IsToPubKey keys script with
      | none => simp [keyID,scriptID,found] at special
      | some pubkey =>
        have pays := IsToPubKey_shape keys found
        refine ⟨pays.length_le,?_⟩
        simp only [keyID,scriptID,found] at special
        cases pays with
        | compressed header x sized kind key shape =>
          subst key
          have first : ((header :: x).drop 1).take 32 = x := by simp [← sized]
          rw [first,List.getElem?_cons_zero,Option.getD_some,if_pos kind] at special
          rcases kind with rfl | rfl
          · exact ⟨2,x,by decide,(Option.some.inj special).symm,sized⟩
          · exact ⟨3,x,by decide,(Option.some.inj special).symm,sized⟩
        | full x y sized key valid shape =>
          subst key
          have first : ((0x04 :: x ++ y).drop 1).take 32 = x := by simp [sized.1]
          rw [first,List.cons_append,List.getElem?_cons_zero,Option.getD_some,if_neg (by decide),if_pos rfl] at special
          rcases low_bit ((0x04 :: (x ++ y))[64]?.getD 0) with even | odd
          · rw [even] at special
            exact ⟨4,x,by decide,(Option.some.inj special).symm,sized.1⟩
          · rw [odd] at special
            exact ⟨5,x,by decide,(Option.some.inj special).symm,sized.1⟩

/-- A kind that makes a script makes it whatever was there before. -/
theorem Decompress_before {kind : Nat} {data : List UInt8} (special : kind < nSpecialScripts) (made : Decompress keys kind data [] ≠ [])
    (before : CScript) : Decompress keys kind data before = Decompress keys kind data [] := by
  have kinds : kind = 0 ∨ kind = 1 ∨ kind = 2 ∨ kind = 3 ∨ kind = 4 ∨ kind = 5 := by
    have small : kind < 6 := special
    omega
  rcases kinds with rfl | rfl | rfl | rfl | rfl | rfl
  · rfl
  · rfl
  · rfl
  · rfl
  · simp only [Decompress] at made ⊢
    cases found : keys.Decompress (UInt8.ofNat (4-2) :: data) with
    | none => exact absurd (by rw [found]) made
    | some pubkey => rfl
  · simp only [Decompress] at made ⊢
    cases found : keys.Decompress (UInt8.ofNat (5-2) :: data) with
    | none => exact absurd (by rw [found]) made
    | some pubkey => rfl

/-- A special form is read as its own script and as no other. -/
theorem Compress_restores (lawful : keys.Lawful) {script : CScript} {compr : List UInt8} (special : Compress keys script = some compr) :
    ∃ kind data, kind < nSpecialScripts ∧ compr = UInt8.ofNat kind :: data ∧ data.length = GetSpecialSize kind ∧
      ∀ before, Decompress keys kind data before = script := by
  obtain ⟨short,kind,data,known,form,sized⟩ := Compress_parts keys special
  have written : Serialize keys script = compr := by simp [Serialize,special]
  have six : nSpecialScripts = 6 := rfl
  have own := @decodes_script keys lawful script (by omega)
  rw [written,form] at own
  have same : Decompress keys kind data [] = script := ((decodes_special keys known sized rfl).unique own (@rfl _ (UInt8.ofNat kind :: data ++ []))).1
  refine ⟨kind,data,known,form,sized,fun before => ?_⟩
  rw [← same]
  refine Decompress_before keys known (fun empty => ?_) before
  have nothing : Compress keys [] = some compr := by rw [← empty,same,special]
  simp [Compress,IsToKeyID,IsToScriptID,IsToPubKey] at nothing

/-! ### The round trip -/

theorem decodes_specialInto {kind : Nat} {data : List UInt8} (special : kind < nSpecialScripts) (sized : data.length = GetSpecialSize kind)
    (before : CScript) : Decodes (UnserializeInto keys before) (UInt8.ofNat kind :: data) (Decompress keys kind data before) := by
  have dataRead := (decodes_data data).return fun vch => Decompress keys kind vch before
  rw [sized] at dataRead
  refine (decodes_kind special).bind ?_
  rw [if_pos special]
  exact dataRead

/-- Whatever the script held before, it is what was written. -/
theorem decodes_scriptInto (lawful : keys.Lawful) {script : CScript} (fits : script.length+nSpecialScripts < 2^32) (before : CScript) :
    Decodes (UnserializeInto keys before) (Serialize keys script) script := by
  cases special : Compress keys script with
  | none =>
    have plain : Serialize keys script = WriteVarInt ((script.length+nSpecialScripts)%2^32 : Nat) ++ script := by simp [Serialize,special]
    rw [plain]
    exact decodes_plain fits _
  | some compr =>
    obtain ⟨kind,data,known,form,sized,restores⟩ := Compress_restores keys lawful special
    have written : Serialize keys script = UInt8.ofNat kind :: data := by simp [Serialize,special,form]
    have read := decodes_specialInto keys known sized before
    rwa [restores before,← written] at read

/-- The number of bytes is not cut to 32 bits. -/
theorem Serialize_length_lt {script : CScript} (fits : script.length+nSpecialScripts < 2^32) : (Serialize keys script).length < 2^32 := by
  cases special : Compress keys script with
  | none =>
    have five := @varIntDigits_room ((script.length+nSpecialScripts)%2^32) false 5 (by omega) (by decide)
    have six : nSpecialScripts = 6 := rfl
    simp only [Serialize,special,List.length_append,WriteVarInt,List.length_reverse]
    omega
  | some compr =>
    obtain ⟨short,kind,data,known,form,sized⟩ := Compress_parts keys special
    have most := GetSpecialSize_le kind
    simp only [Serialize,special,form,List.length_cons,sized]
    omega

/-- A script of fewer than 2^32-6 bytes comes back byte for byte, in as many bytes as were
    foretold, and a script with a special form is the only one that the form gives back. -/
theorem script_lossless (lawful : keys.Lawful) (script : CScript) (fits : script.length+nSpecialScripts < 2^32) :
    (∀ before, Decodes (UnserializeInto keys before) (Serialize keys script) script) ∧
    GetSerializeSize keys script = (Serialize keys script).length ∧ (Serialize keys script).length < 2^32 ∧
    ∀ compr, Compress keys script = some compr → ∃ kind data, kind < nSpecialScripts ∧ compr = UInt8.ofNat kind :: data ∧
      data.length = GetSpecialSize kind ∧ ∀ before, Decompress keys kind data before = script :=
  ⟨decodes_scriptInto keys lawful fits,(Serialize_length keys script).symm,Serialize_length_lt keys fits,
    fun _ special => Compress_restores keys lawful special⟩

/-- A curve without a valid key. -/
def noKeys : KeyRules := ⟨fun _ => false,fun _ => none⟩

theorem noKeys_lawful : noKeys.Lawful := by
  intro parity x y _ _ _ valid
  contradiction

/-- A script that pays to the hash of a key, read over another script. -/
theorem script_lossless_keyID :
    Decodes (UnserializeInto noKeys [1,2,3]) (Serialize noKeys ([0x76,0xA9,20] ++ List.replicate 20 7 ++ [0x88,0xAC]))
      ([0x76,0xA9,20] ++ List.replicate 20 7 ++ [0x88,0xAC]) :=
  (script_lossless noKeys noKeys_lawful _ (by decide)).1 _

/-- The number before a script of 2^32-6 bytes is 0, and stands for the hash of a key. -/
theorem long_script_read {script : CScript} (long : script.length+nSpecialScripts = 2^32) (before : CScript) :
    ¬ Decodes (UnserializeInto keys before) (Serialize keys script) script := by
  intro back
  have six : nSpecialScripts = 6 := rfl
  have written : Serialize keys script = UInt8.ofNat 0 :: script.take 20 ++ script.drop 20 := by
    have special : Compress keys script = none := by
      cases special : Compress keys script with
      | none => rfl
      | some compr =>
        have short := (Compress_parts keys special).1
        omega
    have number : WriteVarInt ((0 : Nat) : Int) = [UInt8.ofNat 0] := by
      rw [WriteVarInt,varIntDigits,if_pos (by decide)]
      rfl
    rw [Serialize,special,long,Nat.mod_self,number,List.singleton_append,List.cons_append,List.take_append_drop]
  have sized : (script.take 20).length = GetSpecialSize 0 := by
    rw [List.length_take]
    show min 20 script.length = 20
    omega
  have read := decodes_specialInto keys (by decide) sized before
  rw [written] at back
  have same := (back.unique read (by rw [List.append_nil])).1
  have short : (Decompress keys 0 (script.take 20) before).length = 25 := by
    simp only [Decompress,List.length_append,sized]
    rfl
  rw [← same] at short
  omega

/-- There are scripts that are lost. -/
theorem long_script_lost :
    ¬ ∀ keys : KeyRules, keys.Lawful → ∀ script before, Decodes (UnserializeInto keys before) (Serialize keys script) script := by
  intro lossless
  have long : (List.replicate (2^32-6) (0 : UInt8)).length+nSpecialScripts = 2^32 := by
    rw [List.length_replicate,nSpecialScripts]
    rfl
  exact long_script_read noKeys long [] (lossless noKeys noKeys_lawful _ [])

end Tetra.CScriptCompressor
