import Mathlib
import Tetra.TxReader

/-!
Amounts as text: what is printed for the user, and what is read from the command line.
-/
namespace Tetra
open Deer (isspace)

/-- `%08lld` -/
def padded (n : Int64) : Text :=
  let digits := digitText n.toInt.natAbs
  if n.toInt < 0 then 0x2D :: (List.replicate (7-digits.length) 0x30 ++ digits) else List.replicate (8-digits.length) 0x30 ++ digits

/-- The loop that trims zeros, on the text from its end: a zero goes where the character two
    before it is a digit. -/
def trimZeros : Text → Text
  | last :: before :: second :: rest =>
    if last = 0x30 ∧ isdigit second then trimZeros (before :: second :: rest) else last :: before :: second :: rest
  | str => str

def FormatMoney (n : Amount) (fPlus : Bool) : Text :=
  let n_abs := if n > 0 then n else -n
  let quotient := n_abs/COIN
  let remainder := n_abs%COIN
  let str := (trimZeros (Deer.decimal quotient ++ 0x2E :: padded remainder).reverse).reverse
  if n < 0 then 0x2D :: str else if fPlus ∧ n > 0 then 0x2B :: str else str

/-- The digits after the point, as far as they have a weight: their sum and what follows. -/
def parseUnits (nMult nUnits : Int64) : Text → Int64 × Text
  | [] => (nUnits,[])
  | c :: p => if isdigit c ∧ nMult > 0 then parseUnits (nMult/10) (nUnits+nMult*(Int64.ofNat c.toNat-0x30)) p else (nUnits,c :: p)

/-- The digits before the point, what comes after it, and the rest of the text. -/
def parseWhole (strWhole : Text) : Text → Option (Text × Int64 × Text)
  | [] => some (strWhole,0,[])
  | c :: p =>
    if c = 0x2E then some (strWhole,parseUnits (CENT*10) 0 p)
    else if isspace c then some (strWhole,0,c :: p)
    else if isdigit c then parseWhole (strWhole ++ [c]) p
    else none

/-- The text ends for the parser at its first zero byte. -/
def ParseMoney (str : Text) : Option Amount := do
  let (strWhole,nUnits,p) ← parseWhole [] ((str.takeWhile (· ≠ 0)).dropWhile isspace)
  if ¬ p.all isspace then none
  else if strWhole.length > 10 then none
  else if nUnits < 0 ∨ nUnits > COIN then none
  else
    let nWhole := atoi64 strWhole
    some (nWhole*COIN+nUnits)

/-- The number that digits are written for; none are written for zero. -/
def digitsValue (digits : Text) : Nat := digits.foldl (fun n c => 10*n+(c.toNat-0x30)) 0

/-- A decimal number of coins, perhaps between spaces. It has no more decimals than an amount
    can hold, and digits may be missing on either side of the point. -/
def Denotes (str : Text) (coins : ℚ) : Prop :=
  ∃ before whole decimals after : Text, ∃ point : Bool,
    str = before ++ whole ++ (if point then 0x2E :: decimals else []) ++ after ∧
    (before ++ after).all isspace ∧ (whole ++ decimals).all isdigit ∧ decimals.length ≤ 2 ∧ (point = false → decimals = []) ∧
    coins = digitsValue whole+digitsValue decimals/10^decimals.length

/-! ### Digits -/

theorem isdigit_iff {c : UInt8} : isdigit c = true ↔ 48 ≤ c.toNat ∧ c.toNat ≤ 57 := by
  simp [isdigit,UInt8.le_iff_toNat_le]

/-- A digit is no space, no sign, no point and not the end of the text. -/
theorem isdigit_other {c : UInt8} (digit : isdigit c = true) : isspace c = false ∧ c ≠ 0x2D ∧ c ≠ 0x2B ∧ c ≠ 0x2E ∧ c ≠ 0 := by
  obtain ⟨low,high⟩ := isdigit_iff.mp digit
  simp only [Deer.isspace,UInt8.le_iff_toNat_le,ne_eq,← UInt8.toNat_inj,Bool.or_eq_false_iff,beq_eq_false_iff_ne,decide_eq_false_iff_not]
  change (¬ c.toNat = 32 ∧ ¬ (9 ≤ c.toNat ∧ c.toNat ≤ 13)) ∧ ¬ c.toNat = 45 ∧ ¬ c.toNat = 43 ∧ ¬ c.toNat = 46 ∧ ¬ c.toNat = 0
  omega

theorem digitsValue_append (digits : Text) (c : UInt8) : digitsValue (digits ++ [c]) = 10*digitsValue digits+(c.toNat-0x30) := by
  rw [digitsValue,List.foldl_append]
  rfl

theorem digitsValue_less {digits : Text} (all : digits.all isdigit = true) : digitsValue digits < 10^digits.length := by
  induction digits using List.reverseRecOn with
  | nil => decide
  | append_singleton digits c ih =>
    rw [List.all_append,Bool.and_eq_true] at all
    have digit := isdigit_iff.mp (by simpa using all.2)
    have before := ih all.1
    rw [digitsValue_append,List.length_append,List.length_singleton,Nat.pow_succ]
    omega

/-- Digits are read as the number they are written for. -/
theorem atoi64_all {digits : Text} (all : digits.all isdigit = true) (small : digitsValue digits < 2^63) :
    atoi64 digits = Int64.ofNat (digitsValue digits) := by
  have taken : digits.takeWhile isdigit = digits := List.takeWhile_eq_self_iff.mpr (by simpa using all)
  have kept : digits.dropWhile isspace = digits ∧ (digits.head? == some 0x2D) = false ∧ (digits.head? == some 0x2B) = false := by
    cases digits with
    | nil => exact ⟨rfl,rfl,rfl⟩
    | cons c rest =>
      rw [List.all_cons,Bool.and_eq_true] at all
      obtain ⟨space,minus,plus,_⟩ := isdigit_other all.1
      exact ⟨List.dropWhile_cons_of_neg (by simp [space]),by simpa using minus,by simpa using plus⟩
  have within : max (-2^63) (min (2^63-1) (digitsValue digits : Int)) = digitsValue digits := by omega
  simp only [atoi64,kept.1,kept.2.1,kept.2.2,Bool.or_self,Bool.false_eq_true,if_false,taken]
  rw [← digitsValue,within]
  rfl

/-! ### Reading -/

theorem digit_value {c : UInt8} (digit : isdigit c = true) : Int64.ofNat c.toNat-0x30 = Int64.ofNat (c.toNat-0x30) :=
  (Int64.ofNat_sub _ _ (isdigit_iff.mp digit).1).symm

theorem digit_next (p : Text) : (∃ c q, p = c :: q ∧ isdigit c = true) ∨ ∀ c ∈ p.head?, isdigit c = false := by
  cases p with
  | nil => exact .inr (by simp)
  | cons c q =>
    cases digit : isdigit c with
    | true => exact .inl ⟨c,q,rfl,digit⟩
    | false => exact .inr (by simpa using digit)

theorem parseUnits_stop {nMult nUnits : Int64} {p : Text} (stop : ¬ nMult > 0 ∨ ∀ c ∈ p.head?, isdigit c = false) :
    parseUnits nMult nUnits p = (nUnits,p) := by
  cases p with
  | nil => rfl
  | cons c p =>
    rw [parseUnits,if_neg]
    rintro ⟨digit,positive⟩
    rcases stop with stop | stop
    · exact stop positive
    · have other := stop c (by simp)
      rw [digit] at other
      contradiction

/-- The digits after the point are read up to two. -/
theorem parseUnits_ten (p : Text) : ∃ decimals rest, p = decimals ++ rest ∧ decimals.all isdigit = true ∧ decimals.length ≤ 2 ∧
    parseUnits (CENT*10) 0 p = (Int64.ofNat (digitsValue decimals*10^(2-decimals.length)),rest) := by
  rcases digit_next p with ⟨c,q,rfl,digit⟩ | stop
  · have tens : parseUnits (CENT*10) 0 (c :: q) = parseUnits 1 (10*(Int64.ofNat c.toNat-0x30)) q := by
      rw [parseUnits,if_pos ⟨digit,by decide⟩,Int64.zero_add]
      rfl
    rw [tens,digit_value digit]
    rcases digit_next q with ⟨d,rest,rfl,also⟩ | stop
    · refine ⟨[c,d],rest,rfl,by simp [digit,also],le_rfl,?_⟩
      have value : digitsValue [c,d]*10^(2-[c,d].length) = 10*(c.toNat-0x30)+(d.toNat-0x30) := by simp [digitsValue]
      rw [parseUnits,if_pos ⟨also,by decide⟩,parseUnits_stop (.inl (by decide)),digit_value also,value,Int64.ofNat_add,Int64.ofNat_mul,Int64.one_mul]
      rfl
    · refine ⟨[c],q,rfl,by simp [digit],by simp,?_⟩
      have value : digitsValue [c]*10^(2-[c].length) = 10*(c.toNat-0x30) := by simp [digitsValue,Nat.mul_comm]
      rw [parseUnits_stop (.inr stop),value,Int64.ofNat_mul]
      rfl
  · exact ⟨[],p,rfl,rfl,by simp,parseUnits_stop (.inr stop)⟩

theorem parseWhole_append {digits : Text} (all : digits.all isdigit = true) (strWhole p : Text) :
    parseWhole strWhole (digits ++ 0x2E :: p) = some (strWhole ++ digits,parseUnits (CENT*10) 0 p) := by
  induction digits generalizing strWhole with
  | nil => rw [List.append_nil]; rfl
  | cons c digits ih =>
    rw [List.all_cons,Bool.and_eq_true] at all
    obtain ⟨space,_,_,point,_⟩ := isdigit_other all.1
    rw [List.cons_append,parseWhole,if_neg point,if_neg (by simp [space]),if_pos all.1,ih all.2,List.append_assoc]
    rfl

theorem parseWhole_cases {strWhole p whole rest : Text} {nUnits : Int64} (parsed : parseWhole strWhole p = some (whole,nUnits,rest)) :
    ∃ digits : Text, whole = strWhole ++ digits ∧ digits.all isdigit = true ∧
      (p = digits ++ rest ∧ nUnits = 0 ∨ ∃ q, p = digits ++ 0x2E :: q ∧ parseUnits (CENT*10) 0 q = (nUnits,rest)) := by
  induction p generalizing strWhole with
  | nil =>
    obtain ⟨rfl,rfl,rfl⟩ : strWhole = whole ∧ 0 = nUnits ∧ [] = rest := by simpa [parseWhole] using parsed
    exact ⟨[],by simp,rfl,.inl ⟨rfl,rfl⟩⟩
  | cons c p ih =>
    rw [parseWhole] at parsed
    split_ifs at parsed with point space digit
    · obtain ⟨rfl,units⟩ : strWhole = whole ∧ parseUnits (CENT*10) 0 p = (nUnits,rest) := by simpa using parsed
      exact ⟨[],by simp,rfl,.inr ⟨p,by rw [point]; rfl,units⟩⟩
    · obtain ⟨rfl,rfl,rfl⟩ : strWhole = whole ∧ 0 = nUnits ∧ c :: p = rest := by simpa using parsed
      exact ⟨[],by simp,rfl,.inl ⟨rfl,rfl⟩⟩
    · obtain ⟨digits,rfl,all,shape⟩ := ih parsed
      refine ⟨c :: digits,by simp,by rw [List.all_cons,digit,all]; rfl,?_⟩
      rcases shape with ⟨rfl,none⟩ | ⟨q,rfl,units⟩
      · exact .inl ⟨rfl,none⟩
      · exact .inr ⟨q,rfl,units⟩

/-- What is read of a whole number of coins and of decimals. -/
theorem money_value {whole decimals : Text} (digits : whole.all isdigit = true) (short : whole.length ≤ 10) (also : decimals.all isdigit = true)
    (two : decimals.length ≤ 2) :
    let nUnits := Int64.ofNat (digitsValue decimals*10^(2-decimals.length))
    ¬ (nUnits < 0 ∨ nUnits > COIN) ∧ (atoi64 whole*COIN+nUnits).toInt = digitsValue whole*100+digitsValue decimals*10^(2-decimals.length) := by
  intro nUnits
  have wholeLess : digitsValue whole < 10^10 := (digitsValue_less digits).trans_le (Nat.pow_le_pow_right (by decide) short)
  have unitsLess : digitsValue decimals*10^(2-decimals.length) < 100 := by
    have less := Nat.mul_lt_mul_of_pos_right (digitsValue_less also) (Nat.pow_pos (n := 2-decimals.length) (show 0 < 10 by decide))
    rwa [← Nat.pow_add,Nat.add_sub_cancel' two] at less
  have units : nUnits.toInt = (digitsValue decimals*10^(2-decimals.length) : Nat) := Int64.toInt_ofNat_of_lt (unitsLess.trans (by decide))
  constructor
  · rw [Int64.lt_iff_toInt_lt,gt_iff_lt,Int64.lt_iff_toInt_lt,units]
    change ¬ (_ < (0 : Int) ∨ (100 : Int) < _)
    omega
  · rw [atoi64_all digits (wholeLess.trans (by decide))]
    change (Int64.ofNat _*Int64.ofNat 100+Int64.ofNat _).toInt = _
    rw [← Int64.ofNat_mul,← Int64.ofNat_add,Int64.toInt_ofNat_of_lt (by omega)]
    push_cast
    rfl

/-- What is read stands in the text, up to its end for the parser. -/
theorem ParseMoney_denotes {str : Text} {n : Amount} (parsed : ParseMoney str = some n) :
    Denotes (str.takeWhile (· ≠ 0)) ((n.toInt : ℚ)/COIN.toInt) := by
  obtain ⟨⟨strWhole,nUnits,p⟩,read,checked⟩ := Option.bind_eq_some_iff.mp parsed
  obtain ⟨before,split,spaces⟩ : ∃ before, str.takeWhile (· ≠ 0) = before ++ (str.takeWhile (· ≠ 0)).dropWhile isspace ∧ before.all isspace = true :=
    ⟨_,List.takeWhile_append_dropWhile.symm,List.all_takeWhile⟩
  simp only at checked
  split_ifs at checked with rest short bounds
  have result : atoi64 strWhole*COIN+nUnits = n := Option.some.inj checked
  obtain ⟨digits,same,all,shape⟩ := parseWhole_cases read
  rw [List.nil_append] at same
  subst same
  rcases shape with ⟨body,none⟩ | ⟨q,body,units⟩
  · have value := (@money_value strWhole [] all (by omega) rfl (by decide)).2
    refine ⟨before,strWhole,[],p,false,by rw [if_neg (by simp),List.append_nil,List.append_assoc,← body]; exact split,?_,?_,by decide,fun _ => rfl,?_⟩
    · rw [List.all_append,spaces,rest]; rfl
    · rwa [List.append_nil]
    · rw [none] at result
      change (atoi64 strWhole*COIN+0).toInt = _ at value
      rw [← result,value]
      simp [digitsValue,show COIN.toInt = 100 from rfl]
  · obtain ⟨decimals,after,rfl,also,two,sum⟩ := parseUnits_ten q
    obtain ⟨rfl,rfl⟩ := Prod.mk.inj (sum.symm.trans units)
    have value := (money_value all (by omega) also two).2
    refine ⟨before,strWhole,decimals,after,true,?_,?_,?_,two,by simp,?_⟩
    · rw [if_pos rfl,List.append_assoc,List.append_assoc,List.cons_append,← body]
      exact split
    · rw [List.all_append,spaces,rest]; rfl
    · rw [List.all_append,all,also]; rfl
    · have power : (10 : ℚ)^(2-decimals.length)*10^decimals.length = 100 := by
        rw [← pow_add,Nat.sub_add_cancel two]
        norm_num
      rw [← result,value,show COIN.toInt = 100 from rfl]
      have positive : (10 : ℚ)^decimals.length ≠ 0 := by positivity
      push_cast
      field_simp
      rw [← power]
      ring

/-- A number of coins is written without a zero byte. -/
theorem Denotes.nonzero {str : Text} {coins : ℚ} (denotes : Denotes str coins) : 0 ∉ str := by
  obtain ⟨before,whole,decimals,after,point,rfl,spaces,digits,_,_,_⟩ := denotes
  rw [List.all_append,Bool.and_eq_true] at spaces digits
  intro zero
  have space (l : Text) (all : l.all isspace = true) : 0 ∉ l := fun member => absurd (List.all_eq_true.mp all 0 member) (by decide)
  have digit (l : Text) (all : l.all isdigit = true) : 0 ∉ l := fun member => absurd (List.all_eq_true.mp all 0 member) (by decide)
  rw [List.mem_append,List.mem_append,List.mem_append] at zero
  rcases zero with ((zero | zero) | zero) | zero
  · exact space _ spaces.1 zero
  · exact digit _ digits.1 zero
  · cases point with
    | true =>
      rcases List.mem_cons.mp zero with same | zero
      · exact absurd same (by decide)
      · exact digit _ digits.2 zero
    | false => simp at zero
  · exact space _ spaces.2 zero

/-! ### Writing -/

/-- Zeros are trimmed at the end, down to two digits after the point. -/
theorem trimZeros_point {digits : Text} (all : digits.all isdigit = true) (two : 2 ≤ digits.length) (rest : Text) :
    ∃ k left, digits = List.replicate k 0x30 ++ left ∧ 2 ≤ left.length ∧ (left.length = 2 ∨ left.head? ≠ some 0x30) ∧
      trimZeros (digits ++ 0x2E :: rest) = left ++ 0x2E :: rest := by
  induction digits with
  | nil => simp at two
  | cons last digits ih =>
    rw [List.all_cons,Bool.and_eq_true] at all
    match digits, two, all.2, ih with
    | [before], _, _, _ => exact ⟨0,[last,before],rfl,le_rfl,.inl rfl,if_neg (fun both => absurd both.2 (by decide))⟩
    | before :: second :: inner, _, others, ih =>
      have digit : isdigit second = true := by
        rw [List.all_cons,List.all_cons,Bool.and_eq_true,Bool.and_eq_true] at others
        exact others.2.1
      by_cases zero : last = 0x30
      · obtain ⟨k,left,split,least,stop,trimmed⟩ := ih others (by simp)
        refine ⟨k+1,left,by rw [split,zero]; rfl,least,stop,?_⟩
        rw [← trimmed]
        exact if_pos ⟨zero,digit⟩
      · exact ⟨0,last :: before :: second :: inner,rfl,by simp,.inr (by simpa using zero),if_neg fun both => zero both.1⟩

theorem digitText_all (n : Nat) : (digitText n).all isdigit = true := List.all_eq_true.mpr fun c member => (digitText_digits c member).1

theorem two_digits : ∀ k < 100, List.replicate (8-(digitText k).length) 0x30 ++ digitText k =
    List.replicate 6 0x30 ++ [UInt8.ofNat (48+k/10),UInt8.ofNat (48+k%10)] := by decide +kernel

/-- The remainder of an amount is written with eight digits, of which the first six are zero. -/
theorem padded_form {r : Int64} (low : 0 ≤ r.toInt) (high : r.toInt < 100) :
    ∃ a b, isdigit a = true ∧ isdigit b = true ∧ padded r = List.replicate 6 0x30 ++ [a,b] ∧ digitsValue [a,b] = r.toInt.natAbs := by
  have digit (d : Nat) (less : d < 10) : (UInt8.ofNat (48+d)).toNat = 48+d := by rw [UInt8.toNat_ofNat',Nat.mod_eq_of_lt (by omega)]
  have tens := digit (r.toInt.natAbs/10) (by omega)
  have ones := digit (r.toInt.natAbs%10) (by omega)
  refine ⟨UInt8.ofNat (48+r.toInt.natAbs/10),UInt8.ofNat (48+r.toInt.natAbs%10),isdigit_iff.mpr (by omega),isdigit_iff.mpr (by omega),?_,?_⟩
  · rw [padded]
    exact (if_neg (by omega)).trans (two_digits r.toInt.natAbs (by omega))
  · simp only [digitsValue,List.foldl_cons,List.foldl_nil,tens,ones]
    omega

section
variable {n : Amount}

theorem money_remainder (positive : 0 ≤ n.toInt) : (n%COIN).toInt = n.toInt%100 := by
  rw [Int64.toInt_mod,show COIN.toInt = 100 from rfl,Int.tmod_eq_emod_of_nonneg positive]

theorem money_quotient (positive : 0 ≤ n.toInt) : Deer.decimal (n/COIN) = digitText (n.toInt.natAbs/100) := by
  have bound := Int64.toInt_lt n
  have quotient : (n/COIN).toInt = n.toInt/100 := by
    rw [Int64.toInt_div,show COIN.toInt = 100 from rfl,Int.tdiv_eq_ediv_of_nonneg positive]
    exact Int.bmod_eq_of_le (by omega) (by omega)
  have same : (n/COIN).toInt.natAbs = n.toInt.natAbs/100 := by omega
  rw [← same]
  exact if_neg (by omega)

end

/-- An amount is written as its digits, a point and two digits or, unless it is a whole number
    of coins, more. -/
theorem FormatMoney_form {n : Amount} (positive : 0 ≤ n.toInt) :
    ∃ decimals, FormatMoney n false = digitText (n.toInt.natAbs/100) ++ 0x2E :: decimals ∧ decimals.all isdigit = true ∧
      (n.toInt%100 = 0 ∧ decimals = [0x30,0x30] ∨ n.toInt%100 ≠ 0 ∧ 3 ≤ decimals.length) := by
  have n_abs : (if n > 0 then n else -n) = n := by
    split_ifs with above
    · rfl
    · rw [gt_iff_lt,Int64.lt_iff_toInt_lt,not_lt] at above
      obtain rfl : n = 0 := Int64.toInt_inj.mp (le_antisymm above positive)
      rfl
  have remainder := money_remainder positive
  obtain ⟨a,b,first,second,form,value⟩ := padded_form (r := n%COIN) (by omega) (by omega)
  have reversed : (Deer.decimal (n/COIN) ++ 0x2E :: padded (n%COIN)).reverse =
      (b :: a :: List.replicate 6 0x30) ++ 0x2E :: (digitText (n.toInt.natAbs/100)).reverse := by
    rw [money_quotient positive,form]
    simp
  have digits : (b :: a :: List.replicate 6 0x30).all isdigit = true := by
    rw [List.all_cons,List.all_cons,first,second]
    decide
  obtain ⟨k,left,split,two,stop,trimmed⟩ := trimZeros_point digits (by simp) (digitText (n.toInt.natAbs/100)).reverse
  rw [split,List.all_append,Bool.and_eq_true] at digits
  have length : k+left.length = 8 := by
    have sizes := congrArg List.length split
    rw [List.length_append,List.length_replicate] at sizes
    exact sizes.symm
  have zero : n.toInt%100 = 0 ↔ a = 0x30 ∧ b = 0x30 := by
    have low := (isdigit_iff.mp first).1
    have also := (isdigit_iff.mp second).1
    simp only [digitsValue,List.foldl_cons,List.foldl_nil] at value
    rw [← UInt8.toNat_inj,← UInt8.toNat_inj]
    change _ ↔ a.toNat = 48 ∧ b.toNat = 48
    omega
  refine ⟨left.reverse,?_,by rw [List.all_reverse]; exact digits.2,?_⟩
  · rw [FormatMoney]
    simp only [n_abs]
    rw [reversed,trimmed,if_neg (fun below => by rw [Int64.lt_iff_toInt_lt] at below; exact absurd positive (not_le.mpr below)),if_neg (by simp)]
    simp
  · by_cases coins : n.toInt%100 = 0
    · obtain ⟨rfl,rfl⟩ := zero.mp coins
      have zeros : left = List.replicate left.length 0x30 := by
        refine List.eq_replicate_iff.mpr ⟨rfl,fun c member => ?_⟩
        have there : c ∈ (0x30 :: 0x30 :: List.replicate 6 0x30 : Text) := by rw [split]; exact List.mem_append_right _ member
        simpa using there
      refine .inl ⟨coins,?_⟩
      rcases stop with short | other
      · rw [zeros,short]
        rfl
      · obtain ⟨m,more⟩ : ∃ m, left.length = m+1 := ⟨left.length-1,by omega⟩
        rw [zeros,more] at other
        exact absurd rfl other
    · refine .inr ⟨coins,?_⟩
      rw [List.length_reverse]
      by_contra short
      have six : k = 6 := by omega
      rw [six] at split
      have ends := List.cons.inj split
      exact coins (zero.mpr ⟨(List.cons.inj ends.2).1,ends.1⟩)

/-- Digits, a point and digits are parsed from their start to their end. -/
theorem ParseMoney_digits {whole decimals : Text} (digits : whole.all isdigit = true) (some : whole ≠ []) (also : decimals.all isdigit = true) :
    ParseMoney (whole ++ 0x2E :: decimals) =
      (let (nUnits,p) := parseUnits (CENT*10) 0 decimals
       if ¬ p.all isspace then none else if whole.length > 10 then none else if nUnits < 0 ∨ nUnits > COIN then none
       else Option.some (atoi64 whole*COIN+nUnits)) := by
  have whole_text : (whole ++ 0x2E :: decimals).takeWhile (· ≠ 0) = whole ++ 0x2E :: decimals := by
    refine List.takeWhile_eq_self_iff.mpr fun c member => ?_
    rw [decide_eq_true_eq]
    rcases List.mem_append.mp member with early | late
    · exact (isdigit_other (List.all_eq_true.mp digits c early)).2.2.2.2
    · rcases List.mem_cons.mp late with rfl | late
      · decide
      · exact (isdigit_other (List.all_eq_true.mp also c late)).2.2.2.2
  have no_space : (whole ++ 0x2E :: decimals).dropWhile isspace = whole ++ 0x2E :: decimals := by
    cases whole with
    | nil => exact absurd rfl some
    | cons c rest =>
      rw [List.all_cons,Bool.and_eq_true] at digits
      exact List.dropWhile_cons_of_neg (by simp [(isdigit_other digits.1).1])
  rw [ParseMoney,whole_text,no_space,parseWhole_append digits,List.nil_append]
  rfl

/-- An amount with at most ten digits of coins is read back just where it is a whole number of
    coins; and what is read of a text without a zero byte is what the text denotes. -/
theorem ParseMoney_FormatMoney (n : Amount) (str : Text) (nRet : Amount) :
    (0 ≤ n → (Deer.decimal (n/COIN)).length ≤ 10 → (ParseMoney (FormatMoney n false) = some n ↔ n%COIN = 0)) ∧
    (ParseMoney str = some nRet → (Denotes str ((nRet.toInt : ℚ)/COIN.toInt) ↔ 0 ∉ str)) := by
  constructor
  · intro nonneg short
    have positive : 0 ≤ n.toInt := Int64.le_iff_toInt_le.mp nonneg
    have bound := Int64.toInt_lt n
    obtain ⟨decimals,form,digits,coins⟩ := FormatMoney_form positive
    have remainder : n%COIN = 0 ↔ n.toInt%100 = 0 := by
      rw [← money_remainder positive,← Int64.toInt_inj]
      exact Iff.rfl
    rw [money_quotient positive] at short
    rw [form,ParseMoney_digits (digitText_all _) (digitText_ne_nil _) digits,remainder]
    rcases coins with ⟨whole,rfl⟩ | ⟨part,long⟩
    · refine ⟨fun _ => whole,fun _ => ?_⟩
      have units : parseUnits (CENT*10) 0 [0x30,0x30] = (0,[]) := by decide
      rw [units]
      simp only [List.all_nil,not_true_eq_false,if_false]
      rw [if_neg (by omega),if_neg (by decide),atoi64_digits (by omega),Option.some.injEq,← Int64.toInt_inj]
      rw [Int64.add_zero,show COIN = Int64.ofInt 100 from rfl,← Int64.ofInt_mul,Int64.toInt_ofInt_of_le (by omega) (by omega)]
      omega
    · refine ⟨fun parsed => ?_,fun whole => absurd whole part⟩
      obtain ⟨read,rest,rfl,_,two,units⟩ := parseUnits_ten decimals
      rw [List.length_append] at long
      rw [List.all_append,Bool.and_eq_true] at digits
      rw [units] at parsed
      obtain ⟨c,q,rfl⟩ := List.exists_cons_of_length_pos (show 0 < rest.length by omega)
      have digit : isdigit c = true := by
        rw [List.all_cons,Bool.and_eq_true] at digits
        exact digits.2.1
      simp [(isdigit_other digit).1] at parsed
  · intro parsed
    refine ⟨Denotes.nonzero,fun nonzero => ?_⟩
    have whole : str.takeWhile (· ≠ 0) = str := List.takeWhile_eq_self_iff.mpr fun c member => by
      rw [decide_eq_true_eq]
      rintro rfl
      exact nonzero member
    have denotes := ParseMoney_denotes parsed
    rwa [whole] at denotes

/-- One coin and a half is written with seven decimals, and not read back. -/
theorem half_coin_lost : FormatMoney 150 false = "1.0000005".toUTF8.toList ∧ ParseMoney (FormatMoney 150 false) ≠ some 150 := by decide +kernel

end Tetra
