import Mathlib
import Tetra.Codec

/-!
Readings: programs that ask for so many bytes and go on with what they get. One reading is
run on a list of bytes and on any machine that hands out bytes; where the machine shows the
bytes of a list, both give the same.
-/
namespace Tetra.Codec

inductive Piecewise (ε α : Type) : Type
  | done (a : α)
  | fail (e : ε)
  | data (n : Nat) (next : List UInt8 → Piecewise ε α)

namespace Piecewise

variable {ε ε' α β σ : Type}

def bind : Piecewise ε α → (α → Piecewise ε β) → Piecewise ε β
  | done a, f => f a
  | fail e, _ => fail e
  | data n next, f => data n fun bytes => (next bytes).bind f

instance : Monad (Piecewise ε) where
  pure := done
  bind := bind

/-- So many bytes. -/
def bytes (n : Nat) : Piecewise ε (List UInt8) := data n done

def many (reading : Piecewise ε α) : Nat → Piecewise ε (List α)
  | 0 => pure []
  | n+1 => do
    let a ← reading
    let as ← many reading n
    return a :: as

/-- The reading of a list; `short` is the error where there are too few bytes. -/
def onList (short : ε) : Piecewise ε α → Reader ε α
  | done a => pure a
  | fail e => throw e
  | data n next => take short n >>= fun bytes => (next bytes).onList short

/-- The reading of what a machine hands out. -/
def run (read : σ → Nat → σ × Except ε' (List UInt8)) (raise : ε → ε') : Piecewise ε α → σ → σ × Except ε' α
  | done a, s => (s,.ok a)
  | fail e, s => (s,.error (raise e))
  | data n next, s =>
    match read s n with
    | (s,.error e) => (s,.error e)
    | (s,.ok bytes) => (next bytes).run read raise s

/-! ### On lists -/

theorem onList_bind (short : ε) (reading : Piecewise ε α) (f : α → Piecewise ε β) :
    (reading >>= f).onList short = reading.onList short >>= fun a => (f a).onList short := by
  change (reading.bind f).onList short = _
  induction reading with
  | done a => rfl
  | fail e => rfl
  | data n next ih =>
    rw [bind,onList,onList,bind_assoc]
    exact congrArg _ (funext ih)

theorem onList_pure (short : ε) (a : α) : (pure a : Piecewise ε α).onList short = pure a := rfl

theorem onList_map (short : ε) (f : α → β) (reading : Piecewise ε α) : (f <$> reading).onList short = f <$> reading.onList short := by
  change (reading >>= fun a => pure (f a)).onList short = _
  rw [onList_bind,map_eq_pure_bind]
  rfl

theorem onList_bytes (short : ε) (n : Nat) : (bytes n : Piecewise ε (List UInt8)).onList short = take short n := bind_pure (take short n)

theorem onList_many (short : ε) (reading : Piecewise ε α) (n : Nat) : (many reading n).onList short = Codec.many (reading.onList short) n := by
  induction n with
  | zero => rfl
  | succ n ih =>
    rw [many,Codec.many,onList_bind]
    congr 1
    funext a
    rw [onList_bind,ih]
    rfl

/-- Bytes may be taken in two parts. -/
theorem take_add (e : ε) (m n : Nat) : take e (m+n) = (do let first ← take e m; let rest ← take e n; pure (first ++ rest) : Reader ε (List UInt8)) := by
  funext bytes
  change take e (m+n) bytes = (take e m bytes).bind fun p => (take e n p.2).bind fun q => .ok (p.1 ++ q.1,q.2)
  by_cases few : bytes.length < m
  · rw [take,take,if_pos few,if_pos (by omega)]
    rfl
  have first : take e m bytes = .ok (bytes.take m,bytes.drop m) := if_neg few
  rw [first]
  change _ = (take e n (bytes.drop m)).bind fun q => .ok (bytes.take m ++ q.1,q.2)
  rw [take,take,List.length_drop]
  by_cases less : bytes.length < m+n
  · rw [if_pos less,if_pos (by omega)]
    rfl
  · rw [if_neg less,if_neg (by omega),List.take_add,List.drop_drop]
    rfl

/-! ### How much is asked for -/

/-- Every request is of so many bytes at most, and such a value is returned. -/
def AtMost (limit : Nat) (ok : α → Prop) : Piecewise ε α → Prop
  | done a => ok a
  | fail _ => True
  | data n next => n ≤ limit ∧ ∀ bytes, bytes.length = n → AtMost limit ok (next bytes)

/-- So is every request where these bytes are read. -/
def Within (limit : Nat) : Piecewise ε α → List UInt8 → Prop
  | done _, _ => True
  | fail _, _ => True
  | data n next, bytes => n ≤ limit ∧ (n ≤ bytes.length → (next (bytes.take n)).Within limit (bytes.drop n))

theorem AtMost.bind {limit : Nat} {ok : α → Prop} {ok' : β → Prop} {reading : Piecewise ε α} {f : α → Piecewise ε β} (first : reading.AtMost limit ok)
    (then' : ∀ a, ok a → (f a).AtMost limit ok') : (reading >>= f).AtMost limit ok' := by
  change (reading.bind f).AtMost limit ok'
  induction reading with
  | done a => exact then' a first
  | fail e => trivial
  | data n next ih => exact ⟨first.1,fun bytes sized => ih bytes (first.2 bytes sized)⟩

theorem AtMost.map {limit : Nat} {ok : α → Prop} {ok' : β → Prop} {reading : Piecewise ε α} (first : reading.AtMost limit ok) (f : α → β)
    (then' : ∀ a, ok a → ok' (f a)) : (f <$> reading).AtMost limit ok' := by
  change (reading >>= fun a => pure (f a)).AtMost limit ok'
  exact first.bind then'

theorem AtMost.bytes {limit n : Nat} (few : n ≤ limit) : (bytes n : Piecewise ε (List UInt8)).AtMost limit fun bytes => bytes.length = n :=
  ⟨few,fun _ sized => sized⟩

theorem AtMost.weaken {limit : Nat} {ok ok' : α → Prop} {reading : Piecewise ε α} (most : reading.AtMost limit ok) (less : ∀ a, ok a → ok' a) :
    reading.AtMost limit ok' := by
  induction reading with
  | done a => exact less a most
  | fail e => trivial
  | data n next ih => exact ⟨most.1,fun bytes sized => ih bytes (most.2 bytes sized)⟩

theorem AtMost.many {limit : Nat} {ok : α → Prop} {reading : Piecewise ε α} (each : reading.AtMost limit ok) (n : Nat) :
    (many reading n).AtMost limit fun _ => True := by
  induction n with
  | zero => trivial
  | succ n ih => exact each.bind fun a _ => ih.bind fun as _ => trivial

theorem AtMost.within {limit cap : Nat} {ok : α → Prop} {reading : Piecewise ε α} (most : reading.AtMost limit ok) (fits : limit ≤ cap)
    (bytes : List UInt8) : reading.Within cap bytes := by
  induction reading generalizing bytes with
  | done a => trivial
  | fail e => trivial
  | data n next ih => exact ⟨most.1.trans fits,fun enough => ih _ (most.2 _ (List.length_take_of_le enough)) _⟩

theorem onList_next (short : ε) {n : Nat} (next : List UInt8 → Piecewise ε α) {bytes : List UInt8} (enough : n ≤ bytes.length) :
    (data n next).onList short bytes = (next (bytes.take n)).onList short (bytes.drop n) := by
  rw [onList]
  change (take short n bytes).bind _ = _
  rw [take,if_neg (Nat.not_lt.mpr enough)]
  rfl

theorem onList_data {short : ε} {n : Nat} {next : List UInt8 → Piecewise ε α} {bytes rest : List UInt8} {a : α}
    (got : (data n next).onList short bytes = .ok (a,rest)) :
    n ≤ bytes.length ∧ (next (bytes.take n)).onList short (bytes.drop n) = .ok (a,rest) := by
  obtain ⟨taken,left,first,last⟩ := bind_ran got
  rw [take] at first
  split at first
  · contradiction
  next enough =>
    obtain ⟨rfl,rfl⟩ := Prod.mk.inj (Except.ok.inj first)
    exact ⟨Nat.le_of_not_lt enough,last⟩

/-- What is read leaves the end of the list. -/
theorem onList_rest {short : ε} {reading : Piecewise ε α} {bytes rest : List UInt8} {a : α} (got : reading.onList short bytes = .ok (a,rest)) :
    rest.length ≤ bytes.length ∧ rest = bytes.drop (bytes.length-rest.length) := by
  induction reading generalizing bytes with
  | done b =>
    obtain ⟨_,rfl⟩ := Prod.mk.inj (Except.ok.inj got)
    exact ⟨le_rfl,by rw [Nat.sub_self,List.drop_zero]⟩
  | fail e => contradiction
  | data n next ih =>
    obtain ⟨enough,last⟩ := onList_data got
    obtain ⟨shorter,same⟩ := ih _ last
    rw [List.length_drop] at shorter same
    rw [List.drop_drop] at same
    have counted : n+(bytes.length-n-rest.length) = bytes.length-rest.length := by omega
    exact ⟨by omega,counted ▸ same⟩

/-- No request is of more bytes than are taken. -/
theorem within_taken {short : ε} {cap : Nat} {reading : Piecewise ε α} {bytes rest : List UInt8} {a : α}
    (got : reading.onList short bytes = .ok (a,rest)) (few : bytes.length ≤ rest.length+cap) : reading.Within cap bytes := by
  induction reading generalizing bytes with
  | done b => trivial
  | fail e => trivial
  | data n next ih =>
    obtain ⟨enough,last⟩ := onList_data got
    have shorter := (onList_rest last).1
    rw [List.length_drop] at shorter
    exact ⟨by omega,fun _ => ih _ last (by rw [List.length_drop]; omega)⟩

theorem Within.bind {short : ε} {cap : Nat} {reading : Piecewise ε α} {f : α → Piecewise ε β} {bytes : List UInt8} (first : reading.Within cap bytes)
    (then' : ∀ a rest, reading.onList short bytes = .ok (a,rest) → (f a).Within cap rest) : (reading >>= f).Within cap bytes := by
  change (reading.bind f).Within cap bytes
  induction reading generalizing bytes with
  | done a => exact then' a bytes rfl
  | fail e => trivial
  | data n next ih =>
    exact ⟨first.1,fun enough => ih _ (first.2 enough) fun a rest got => then' a rest ((onList_next short next enough).trans got)⟩

/-! ### On machines -/

/-- A machine that shows the bytes of a list and hands out up to `cap` of them at once. Its
    state goes on as `goes` says, and as `stops` where something is thrown. -/
structure Shows (read : σ → Nat → σ × Except ε' (List UInt8)) (raise : ε → ε') (limit cap : Nat) (Inv : σ → Prop) (rest : σ → List UInt8)
    (goes : σ → σ → Prop) (stops : ε' → σ → σ → Prop) : Prop where
  refl : ∀ s, Inv s → goes s s
  trans : ∀ s s' s'', goes s s' → goes s' s'' → goes s s''
  stay : ∀ e s, Inv s → stops (raise e) s s
  last : ∀ e s s' s'', goes s s' → stops e s' s'' → stops e s s''
  hands : ∀ s n, Inv s → n ≤ limit →
    (∃ s', read s n = (s',.ok ((rest s).take n)) ∧ n ≤ (rest s).length ∧ Inv s' ∧ rest s' = (rest s).drop n ∧ goes s s') ∨
      ∃ s' e, read s n = (s',.error e) ∧ (cap < n ∨ (rest s).length < n) ∧ stops e s s'

variable {read : σ → Nat → σ × Except ε' (List UInt8)} {raise : ε → ε'} {limit cap : Nat} {Inv : σ → Prop} {rest : σ → List UInt8}
  {goes : σ → σ → Prop} {stops : ε' → σ → σ → Prop}

/-- What the machine gives is what the list gives. -/
theorem Shows.run_list (shows' : Shows read raise limit cap Inv rest goes stops) (short : ε) {reading : Piecewise ε α} {ok : α → Prop}
    (most : reading.AtMost limit ok) {s : σ} (inv : Inv s) :
    (∃ s' a, reading.run read raise s = (s',.ok a) ∧ reading.onList short (rest s) = .ok (a,rest s') ∧ Inv s' ∧ goes s s') ∨
      ∃ s' e, reading.run read raise s = (s',.error e) ∧ stops e s s' := by
  induction reading generalizing s with
  | done a => exact .inl ⟨s,a,rfl,rfl,inv,shows'.refl s inv⟩
  | fail e => exact .inr ⟨s,raise e,rfl,shows'.stay e s inv⟩
  | data n next ih =>
    rw [run]
    rcases shows'.hands s n inv most.1 with ⟨t,got,enough,inv',left,went⟩ | ⟨t,e,failed,-,ended⟩
    · rw [got]
      dsimp only
      rcases ih _ (most.2 _ (List.length_take_of_le enough)) inv' with ⟨s',a,ran,same,inv'',further⟩ | ⟨s',e,ran,further⟩
      · refine .inl ⟨s',a,ran,?_,inv'',shows'.trans _ _ _ went further⟩
        rw [onList_next short next enough,← left]
        exact same
      · exact .inr ⟨s',e,ran,shows'.last _ _ _ _ went further⟩
    · rw [failed]
      exact .inr ⟨t,e,rfl,ended⟩

/-- Where no request is too large the machine gives what the list gives. -/
theorem Shows.run_of_list (shows' : Shows read raise limit cap Inv rest goes stops) {short : ε} {reading : Piecewise ε α} {ok : α → Prop}
    (most : reading.AtMost limit ok) {s : σ} (inv : Inv s) {a : α} {left : List UInt8} (got : reading.onList short (rest s) = .ok (a,left))
    (within : reading.Within cap (rest s)) : ∃ s', reading.run read raise s = (s',.ok a) := by
  induction reading generalizing s with
  | done b =>
    obtain ⟨rfl,_⟩ := Prod.mk.inj (Except.ok.inj got)
    exact ⟨s,rfl⟩
  | fail e => contradiction
  | data n next ih =>
    obtain ⟨enough,later⟩ := onList_data got
    rw [run]
    rcases shows'.hands s n inv most.1 with ⟨t,handed,_,inv',shown,-⟩ | ⟨t,e,-,large,-⟩
    · rw [handed]
      rw [← shown] at later
      exact ih _ (most.2 _ (List.length_take_of_le enough)) inv' later (shown ▸ within.2 enough)
    · have small := within.1
      omega

end Piecewise

end Tetra.Codec
