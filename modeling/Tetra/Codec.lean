import Mathlib

/-!
Readers of a stream of bytes, and what it means that one reads what was written: the
value comes back and the rest of the stream is left. Forms whose bytes tell the value and
where it ends are prefix free.
-/
namespace Tetra.Codec

variable {ε α β σ : Type}

abbrev Reader (ε : Type) := StateT (List UInt8) (Except ε)

/-- Wherever these bytes come next, the reader takes them and returns the value. -/
def Decodes (reader : Reader ε α) (bytes : List UInt8) (a : α) : Prop := ∀ rest, reader (bytes ++ rest) = .ok (a,rest)

/-- The bytes of a form determine the value, whatever follows. -/
def PrefixFree (form : α → List UInt8) (ok : α → Prop) : Prop :=
  ∀ a b x y, ok a → ok b → form a ++ x = form b ++ y → a = b ∧ x = y

/-- Takes some bytes, or fails where there are fewer. -/
def take (e : ε) (n : Nat) : Reader ε (List UInt8) := fun bytes =>
  if bytes.length < n then .error e else .ok (bytes.take n,bytes.drop n)

def many (reader : Reader ε α) : Nat → Reader ε (List α)
  | 0 => pure []
  | n+1 => do
    let a ← reader
    let as ← many reader n
    return a :: as

/-- A number of turns, each from what the one before left. -/
def loop (turn : σ → Reader ε σ) : Nat → σ → Reader ε σ
  | 0, s => pure s
  | n+1, s => do
    let s ← turn s
    loop turn n s

/-- The last bytes of a number, least significant first. -/
def leBytes : Nat → Nat → List UInt8
  | 0, _ => []
  | k+1, n => UInt8.ofNat n :: leBytes k (n/256)

def leNat : List UInt8 → Nat
  | [] => 0
  | byte :: rest => byte.toNat+256*leNat rest

@[simp] theorem leBytes_length (k n : Nat) : (leBytes k n).length = k := by
  induction k generalizing n with
  | zero => rfl
  | succ k ih => rw [leBytes,List.length_cons,ih]

@[simp] theorem leNat_leBytes {k n : Nat} (fits : n < 256^k) : leNat (leBytes k n) = n := by
  induction k generalizing n with
  | zero =>
    rw [leBytes,leNat]
    omega
  | succ k ih =>
    have high : n/256 < 256^k := Nat.div_lt_of_lt_mul (by rw [Nat.pow_succ,Nat.mul_comm] at fits; exact fits)
    rw [leBytes,leNat,ih high,UInt8.toNat_ofNat']
    omega

/-! ### Readers -/

theorem Decodes.pure (a : α) : Decodes (Pure.pure a : Reader ε α) [] a := fun _ => rfl

/-- What follows a reader sees its value and the rest. -/
theorem Decodes.bind_eq {reader : Reader ε α} {bytes : List UInt8} {a : α} (reads : Decodes reader bytes a) (next : α → Reader ε β)
    (rest : List UInt8) : (reader >>= next) (bytes ++ rest) = next a rest := by
  show (reader (bytes ++ rest)).bind (fun p => next p.1 p.2) = _
  rw [reads rest]
  rfl

theorem Decodes.bind {reader : Reader ε α} {next : α → Reader ε β} {first second : List UInt8} {a : α} {b : β}
    (reads : Decodes reader first a) (then' : Decodes (next a) second b) : Decodes (reader >>= next) (first ++ second) b := by
  intro rest
  rw [List.append_assoc,reads.bind_eq]
  exact then' rest

/-- The last step of a reader takes no bytes. -/
theorem Decodes.return {reader : Reader ε α} {bytes : List UInt8} {a : α} (reads : Decodes reader bytes a) (f : α → β) :
    Decodes (do let a ← reader; Pure.pure (f a)) bytes (f a) := by
  have both := @Decodes.bind ε α β reader (fun a => Pure.pure (f a)) bytes [] a (f a) reads (.pure (f a))
  rwa [List.append_nil] at both

theorem Decodes.map {reader : Reader ε α} {bytes : List UInt8} {a : α} (reads : Decodes reader bytes a) (f : α → β) :
    Decodes (f <$> reader) bytes (f a) := by
  intro rest
  show (reader (bytes ++ rest)).bind (fun p => Except.ok (f p.1,p.2)) = _
  rw [reads rest]
  rfl

theorem Decodes.unique {reader : Reader ε α} {first second x y : List UInt8} {a b : α} (left : Decodes reader first a) (right : Decodes reader second b)
    (same : first ++ x = second ++ y) : a = b ∧ x = y := by
  have taken := left x
  rw [same,right y] at taken
  obtain ⟨value,rest⟩ := Prod.mk.inj (Except.ok.inj taken)
  exact ⟨value.symm,rest.symm⟩

theorem decodes_take (e : ε) (bytes : List UInt8) : Decodes (take e bytes.length) bytes bytes := by
  intro rest
  rw [take,if_neg (by rw [List.length_append]; omega),List.take_left,List.drop_left]

theorem Decodes.many {reader : Reader ε α} {form : α → List UInt8} {as : List α} (reads : ∀ a ∈ as, Decodes reader (form a) a) :
    Decodes (many reader as.length) (as.flatMap form) as := by
  induction as with
  | nil => exact .pure []
  | cons a as ih =>
    have first := reads a (List.mem_cons_self ..)
    have rest := ih fun b member => reads b (List.mem_cons_of_mem _ member)
    exact first.bind (rest.return (a :: ·))

/-- What each turn keeps of the values read so far holds of all of them at the end. -/
theorem Decodes.loop {turn : σ → Reader ε σ} {form : α → List UInt8} {P : List α → σ → Prop} {as : List α} {s : σ} (start : P [] s)
    (step : ∀ before a after s, as = before ++ a :: after → P before s → ∃ s', Decodes (turn s) (form a) s' ∧ P (before ++ [a]) s') :
    ∃ s', Decodes (loop turn as.length s) (as.flatMap form) s' ∧ P as s' := by
  have rest : ∀ after before s, as = before ++ after → P before s → ∃ s', Decodes (Codec.loop turn after.length s) (after.flatMap form) s' ∧ P as s' := by
    intro after
    induction after with
    | nil =>
      intro before s all holds
      rw [all,List.append_nil]
      exact ⟨s,.pure s,holds⟩
    | cons a after ih =>
      intro before s all holds
      obtain ⟨mid,first,kept⟩ := step before a after s all holds
      obtain ⟨s',later,last⟩ := ih (before ++ [a]) mid (by rw [all,List.append_assoc]; rfl) kept
      exact ⟨s',first.bind later,last⟩
  exact rest as [] s rfl start

/-- Wherever these bytes come next, the reader gives up. -/
def Fails (reader : Reader ε α) (bytes : List UInt8) : Prop := ∀ rest, ∃ e, reader (bytes ++ rest) = .error e

theorem Fails.bind {reader : Reader ε α} {bytes : List UInt8} (fails : Fails reader bytes) (next : α → Reader ε β) (more : List UInt8) :
    Fails (reader >>= next) (bytes ++ more) := by
  intro rest
  obtain ⟨e,stopped⟩ := fails (more ++ rest)
  rw [← List.append_assoc] at stopped
  refine ⟨e,?_⟩
  show (reader (bytes ++ more ++ rest)).bind (fun p => next p.1 p.2) = _
  rw [stopped]
  rfl

theorem Decodes.fails {reader : Reader ε α} {next : α → Reader ε β} {first second : List UInt8} {a : α} (reads : Decodes reader first a)
    (fails : Fails (next a) second) : Fails (reader >>= next) (first ++ second) := by
  intro rest
  rw [List.append_assoc,reads.bind_eq]
  exact fails rest

/-- What follows the first bytes is read by what follows the first step. -/
theorem Decodes.tail {reader : Reader ε α} {next : α → Reader ε β} {first second : List UInt8} {a : α} {b : β}
    (whole : Decodes (reader >>= next) (first ++ second) b) (reads : Decodes reader first a) : Decodes (next a) second b := by
  intro rest
  have both := whole rest
  rwa [List.append_assoc,reads.bind_eq] at both

/-- A result of two steps is one of the second, from what the first left. -/
theorem bind_ran {reader : Reader ε α} {next : α → Reader ε β} {bytes rest : List UInt8} {b : β} (ran : (reader >>= next) bytes = .ok (b,rest)) :
    ∃ a left, reader bytes = .ok (a,left) ∧ next a left = .ok (b,rest) := by
  change (reader bytes).bind (fun p => next p.1 p.2) = _ at ran
  cases taken : reader bytes with
  | error e =>
    rw [taken] at ran
    contradiction
  | ok p =>
    rw [taken] at ran
    exact ⟨p.1,p.2,rfl,ran⟩

/-! ### What readers return -/

/-- Whatever the bytes are, a value that is returned is such a one. -/
def Returns (reader : Reader ε α) (ok : α → Prop) : Prop := ∀ bytes a rest, reader bytes = .ok (a,rest) → ok a

theorem Decodes.returned {reader : Reader ε α} {bytes : List UInt8} {a : α} {ok : α → Prop} (reads : Decodes reader bytes a)
    (returns : Returns reader ok) : ok a := returns _ _ _ (reads [])

theorem Returns.pure {a : α} {ok : α → Prop} (holds : ok a) : Returns (Pure.pure a : Reader ε α) ok := by
  intro bytes b rest read
  obtain ⟨rfl,rfl⟩ := Prod.mk.inj (Except.ok.inj read)
  exact holds

theorem Returns.bind {reader : Reader ε α} {next : α → Reader ε β} {ok : α → Prop} {ok' : β → Prop} (first : Returns reader ok)
    (then' : ∀ a, ok a → Returns (next a) ok') : Returns (reader >>= next) ok' := by
  intro bytes b rest read
  obtain ⟨a,left,taken,last⟩ := bind_ran read
  exact then' a (first _ _ _ taken) _ _ _ last

theorem Returns.map {reader : Reader ε α} {ok : α → Prop} {ok' : β → Prop} (first : Returns reader ok) (f : α → β)
    (then' : ∀ a, ok a → ok' (f a)) : Returns (f <$> reader) ok' := first.bind fun a holds => .pure (then' a holds)

theorem Returns.weaken {reader : Reader ε α} {ok ok' : α → Prop} (returns : Returns reader ok) (less : ∀ a, ok a → ok' a) : Returns reader ok' :=
  fun _ _ _ read => less _ (returns _ _ _ read)

theorem Returns.throw (e : ε) (ok : α → Prop) : Returns (MonadExceptOf.throw e : Reader ε α) ok := by
  intro bytes a rest read
  contradiction

theorem returns_take (e : ε) (n : Nat) : Returns (take e n) fun bytes => bytes.length = n := by
  intro bytes taken rest read
  unfold take at read
  split at read
  · contradiction
  next enough =>
    obtain ⟨rfl,rfl⟩ := Prod.mk.inj (Except.ok.inj read)
    rw [List.length_take]
    omega

theorem Returns.many {reader : Reader ε α} {ok : α → Prop} (each : Returns reader ok) (n : Nat) :
    Returns (many reader n) fun as => as.length = n ∧ ∀ a ∈ as, ok a := by
  induction n with
  | zero => exact .pure ⟨rfl,by simp⟩
  | succ n ih =>
    refine each.bind fun a first => ih.bind fun as rest => .pure ⟨by rw [List.length_cons,rest.1],?_⟩
    exact List.forall_mem_cons.mpr ⟨first,rest.2⟩

/-- No value is returned without that many bytes. -/
def Takes (reader : Reader ε α) (n : Nat) : Prop := ∀ bytes a rest, reader bytes = .ok (a,rest) → rest.length+n ≤ bytes.length

theorem Takes.pure (a : α) : Takes (Pure.pure a : Reader ε α) 0 := by
  intro bytes b rest read
  obtain ⟨_,rfl⟩ := Prod.mk.inj (Except.ok.inj read)
  exact le_rfl

theorem Takes.bind {reader : Reader ε α} {next : α → Reader ε β} {m n : Nat} (first : Takes reader m) (then' : ∀ a, Takes (next a) n) :
    Takes (reader >>= next) (m+n) := by
  intro bytes b rest read
  obtain ⟨a,left,taken,last⟩ := bind_ran read
  have before := first _ _ _ taken
  have after := then' a _ _ _ last
  omega

theorem Takes.less {reader : Reader ε α} {m n : Nat} (takes : Takes reader n) (fewer : m ≤ n) : Takes reader m := by
  intro bytes a rest read
  have all := takes _ _ _ read
  omega

theorem takes_take (e : ε) (n : Nat) : Takes (take e n) n := by
  intro bytes taken rest read
  unfold take at read
  split at read
  · contradiction
  next enough =>
    obtain ⟨_,rfl⟩ := Prod.mk.inj (Except.ok.inj read)
    rw [List.length_drop]
    omega

theorem Takes.many {reader : Reader ε α} {n : Nat} (each : Takes reader n) (k : Nat) : Takes (many reader k) (k*n) := by
  induction k with
  | zero => exact (Takes.pure []).less (by omega)
  | succ k ih =>
    have both := each.bind fun a => ih.bind fun as => Takes.pure (a :: as)
    exact both.less (by rw [Nat.succ_mul]; omega)

/-! ### Forms -/

theorem PrefixFree.of_decodes {reader : Reader ε α} {form : α → List UInt8} {ok : α → Prop} (reads : ∀ a, ok a → Decodes reader (form a) a) :
    PrefixFree form ok := fun a b _ _ left right same => (reads a left).unique (reads b right) same

theorem PrefixFree.injective {form : α → List UInt8} {ok : α → Prop} (free : PrefixFree form ok) {a b : α} (left : ok a) (right : ok b)
    (same : form a = form b) : a = b := (free a b [] [] left right (by rw [same])).1

/-- A form of one length need only tell the values apart. -/
theorem PrefixFree.of_length {form : α → List UInt8} {ok : α → Prop} (n : Nat) (sized : ∀ a, ok a → (form a).length = n)
    (apart : ∀ a b, ok a → ok b → form a = form b → a = b) : PrefixFree form ok := by
  intro a b x y left right same
  have equal := List.append_inj same (by rw [sized a left,sized b right])
  exact ⟨apart a b left right equal.1,equal.2⟩

theorem prefixFree_leBytes (k : Nat) : PrefixFree (leBytes k) fun n => n < 256^k := by
  refine .of_length k (fun _ _ => leBytes_length ..) fun a b left right same => ?_
  rw [← leNat_leBytes left,same,leNat_leBytes right]

theorem PrefixFree.append {form : α → List UInt8} {other : β → List UInt8} {ok : α → Prop} {ok' : β → Prop} (first : PrefixFree form ok)
    (second : PrefixFree other ok') : PrefixFree (fun p : α × β => form p.1 ++ other p.2) fun p => ok p.1 ∧ ok' p.2 := by
  rintro ⟨a,b⟩ ⟨a',b'⟩ x y ⟨left,left'⟩ ⟨right,right'⟩ same
  rw [List.append_assoc,List.append_assoc] at same
  obtain ⟨rfl,rest⟩ := first a a' _ _ left right same
  obtain ⟨rfl,last⟩ := second b b' x y left' right' rest
  exact ⟨rfl,last⟩

theorem PrefixFree.comap {form : β → List UInt8} {ok : β → Prop} (free : PrefixFree form ok) {f : α → β} (injective : Function.Injective f) :
    PrefixFree (fun a => form (f a)) fun a => ok (f a) := by
  intro a b x y left right same
  obtain ⟨equal,rest⟩ := free _ _ x y left right same
  exact ⟨injective equal,rest⟩

theorem PrefixFree.weaken {form : α → List UInt8} {ok ok' : α → Prop} (free : PrefixFree form ok) (less : ∀ a, ok' a → ok a) :
    PrefixFree form ok' := fun a b x y left right => free a b x y (less a left) (less b right)

/-- Lists of one length. -/
theorem PrefixFree.flatMap {form : α → List UInt8} {ok : α → Prop} (free : PrefixFree form ok) {as bs : List α} {x y : List UInt8}
    (left : ∀ a ∈ as, ok a) (right : ∀ b ∈ bs, ok b) (sized : as.length = bs.length) (same : as.flatMap form ++ x = bs.flatMap form ++ y) :
    as = bs ∧ x = y := by
  induction as generalizing bs with
  | nil =>
    obtain rfl := List.length_eq_zero_iff.mp sized.symm
    exact ⟨rfl,same⟩
  | cons a as ih =>
    cases bs with
    | nil => simp at sized
    | cons b bs =>
      rw [List.flatMap_cons,List.flatMap_cons,List.append_assoc,List.append_assoc] at same
      obtain ⟨rfl,rest⟩ := free a b _ _ (left a (List.mem_cons_self ..)) (right b (List.mem_cons_self ..)) same
      obtain ⟨rfl,last⟩ := ih (fun c member => left c (List.mem_cons_of_mem _ member)) (fun c member => right c (List.mem_cons_of_mem _ member))
        (Nat.succ.inj sized) rest
      exact ⟨rfl,last⟩

/-- A list whose length comes first. -/
theorem PrefixFree.counted {count : Nat → List UInt8} {okCount : Nat → Prop} {form : α → List UInt8} {ok : α → Prop}
    (counts : PrefixFree count okCount) (free : PrefixFree form ok) :
    PrefixFree (fun as : List α => count as.length ++ as.flatMap form) fun as => okCount as.length ∧ ∀ a ∈ as, ok a := by
  rintro as bs x y ⟨left,left'⟩ ⟨right,right'⟩ same
  rw [List.append_assoc,List.append_assoc] at same
  obtain ⟨sized,rest⟩ := counts _ _ _ _ left right same
  exact free.flatMap left' right' sized rest

end Tetra.Codec
