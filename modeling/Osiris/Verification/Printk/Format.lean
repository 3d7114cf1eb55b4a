import Osiris.Library.Loop
import Osiris.Library.Numerals
import Osiris.Model.Printk
import Osiris.Verification.Tar.Fields

/-! # The language of formats

What a format asks for, place by place, and what that expands to when the buffer is large enough.
The loop of `vsnprintf` does this expansion as long as there is room. -/

namespace Osiris.Printk

open ByteMemory Heap Tar

/-! ## Directives -/

inductive Directive where
  | literal
  | string
  | signed (base : BitVec 32)
  | unsigned
  | longUnsigned
  | longHex
  | other
deriving DecidableEq, Repr

def Call.directive (c : Call) (p : ℕ) : Directive :=
  if c.fmtAt p ≠ 0x25#8 then .literal
  else if c.fmtAt (p + 1) = 0x73#8 then .string
  else if c.fmtAt (p + 1) = 0x64#8 then .signed 10#32
  else if c.fmtAt (p + 1) = 0x78#8 then .signed 16#32
  else if c.fmtAt (p + 1) = 0x75#8 then .unsigned
  else if c.fmtAt (p + 1) = 0x6C#8 ∧ c.fmtAt (p + 2) = 0x6C#8 then
    if c.fmtAt (p + 3) = 0x75#8 then .longUnsigned
    else if c.fmtAt (p + 3) = 0x78#8 then .longHex
    else .other
  else .other

/-- The characters of a directive in the format. -/
@[simp] def Directive.chars : Directive → ℕ
  | .literal => 1
  | .longUnsigned => 4
  | .longHex => 4
  | _ => 2

/-- The arguments that a directive takes. -/
@[simp] def Directive.args : Directive → ℕ
  | .literal => 0
  | .other => 0
  | _ => 1

def Directive.IsNumber : Directive → Prop
  | .literal => False
  | .string => False
  | .other => False
  | _ => True

theorem Directive.IsNumber.ne_string {d : Directive} (hd : d.IsNumber) : d ≠ .string := by
  rintro rfl
  exact hd

theorem Directive.IsNumber.ne_literal {d : Directive} (hd : d.IsNumber) : d ≠ .literal := by
  rintro rfl
  exact hd

/-- The digits of a number, from the table where `%u` looks them up. -/
def Call.unsignedText (c : Call) (n : ℕ) : List Byte :=
  if n = 0 then [0x30#8]
  else ((Nat.digits 10 n).map fun d => c.mem (c.decDigits + BitVec.ofNat 64 d)).reverse

/-- What a directive other than `%s` expands to. -/
def Call.text (c : Call) (p arg : ℕ) : Directive → List Byte
  | .literal => [c.fmtAt p]
  | .string => []
  | .signed base => (signedTmp c base ((c.args arg).setWidth 32)).reverse
  | .unsigned => c.unsignedText (((c.args arg).setWidth 32).setWidth 64).toNat
  | .longUnsigned => c.unsignedText (c.args arg).toNat
  | .longHex => (hexTmp c (c.args arg)).reverse
  | .other => [c.fmtAt (p + 1)]

/-- The directive at a place expands to a text. -/
def Call.Expands (c : Call) (p arg : ℕ) (text : List Byte) : Prop :=
  if c.directive p = .string then StringAt c.mem (c.args arg) text
  else text = c.text p arg (c.directive p)

/-- The directives of the format one after the other, each with the number of arguments taken before
it and the text that those before it expand to. -/
inductive Visits (c : Call) : ℕ → ℕ → List Byte → Prop
  | start : Visits c 0 0 []
  | next {p arg : ℕ} {before text : List Byte} : Visits c p arg before → c.fmtAt p ≠ 0#8 →
      c.Expands p arg text →
      Visits c (p + (c.directive p).chars) (arg + (c.directive p).args) (before ++ text)

/-! ## Room -/

/-- The characters that the buffer takes in front of the NUL. -/
def Call.limit (c : Call) : ℕ :=
  (c.size - 1#32).toInt.toNat

section Room

variable {c : Call}

theorem hasRoom_iff {out : List Byte} : c.HasRoom out ↔ out.length < c.limit := by
  unfold Call.HasRoom Call.limit
  omega

theorem limit_eq (hsize : 1 ≤ c.size.toInt) :
    c.limit + 1 = c.size.toNat ∧ c.size.toInt = c.size.toNat := by
  have hint := BitVec.toInt_eq_toNat_cond c.size
  have hwide := c.size.isLt
  have hpos : c.size.toInt = c.size.toNat := by
    split at hint <;> omega
  have hless : (c.size - 1#32).toNat = c.size.toNat - 1 := by
    have hle : 1#32 ≤ c.size := BitVec.le_def.mpr (show 1 ≤ c.size.toNat by omega)
    rw [BitVec.toNat_sub_of_le hle]
    rfl
  have hlimit : (c.size - 1#32).toInt = (c.size.toNat - 1 : ℕ) := by
    rw [BitVec.toInt_eq_toNat_of_lt (by split at hint <;> omega), hless]
  unfold Call.limit
  omega

end Room

/-! ## Conversions -/

section Conversions

variable {c : Call} {fuel : ℕ} {s num : Word} {out out' t tmp tmp' : List Byte}

/-- `%s` copies the string or stops when the buffer is full. -/
theorem copyString_ok (hok : copyString c fuel s out = .ok out') (hle : out.length ≤ c.limit) :
    ∃ t, out' = out ++ t ∧ out'.length ≤ c.limit ∧ (∀ ch ∈ t, ch ≠ 0#8) ∧
      (out'.length < c.limit → StringAt c.mem s t) := by
  induction fuel generalizing s out with
  | zero => cases hok
  | succ fuel ih =>
      simp only [copyString, hasRoom_iff] at hok
      by_cases hgo : c.mem s ≠ 0#8 ∧ out.length < c.limit
      · rw [if_pos hgo] at hok
        obtain ⟨t, rfl, hlength, hne, hstring⟩ := ih hok (by
          rw [List.length_append, List.length_singleton]
          omega)
        refine ⟨c.mem s :: t, by simp, hlength, List.forall_mem_cons.mpr ⟨hgo.1, hne⟩, ?_⟩
        exact fun hlt => ⟨hgo.1, rfl, hstring hlt⟩
      · rw [if_neg hgo] at hok
        cases hok
        refine ⟨[], by simp, hle, by simp, fun hlt => ?_⟩
        by_contra hne
        exact hgo ⟨hne, hlt⟩

theorem copyString_of_string (hs : StringAt c.mem s t) (hroom : out.length + t.length < c.limit)
    (hfuel : t.length < fuel) : copyString c fuel s out = .ok (out ++ t) := by
  induction t generalizing s out fuel with
  | nil =>
      obtain ⟨fuel, rfl⟩ := Nat.exists_eq_succ_of_ne_zero hfuel.ne'
      have hnul : c.mem s = 0#8 := hs
      rw [copyString, if_neg (fun hgo => hgo.1 hnul), List.append_nil]
  | cons ch t ih =>
      obtain ⟨fuel, rfl⟩ := Nat.exists_eq_succ_of_ne_zero (Nat.ne_of_gt (Nat.zero_lt_of_lt hfuel))
      obtain ⟨hne, hmem, hrest⟩ := hs
      rw [List.length_cons] at hroom hfuel
      have hlt : out.length < c.limit := by omega
      have hnext : copyString c fuel (s + 1#64) (out ++ [ch]) = .ok (out ++ [ch] ++ t) :=
        ih hrest (by simp; omega) (by omega)
      simp [copyString, hmem, hne, hasRoom_iff, hlt, hnext]

/-- `%s` ends at the latest when the buffer is full. -/
theorem copyString_returns (hfuel : c.limit - out.length < fuel) :
    ∃ out', copyString c fuel s out = .ok out' := by
  induction fuel generalizing s out with
  | zero => omega
  | succ fuel ih =>
      simp only [copyString, hasRoom_iff]
      split
      · rename_i hgo
        exact ih (by simp; omega)
      · exact ⟨out, rfl⟩

theorem umod_ofNat (num : Word) {b : ℕ} (hb : b < 2 ^ 64) :
    num % BitVec.ofNat 64 b = BitVec.ofNat 64 (num.toNat % b) := by
  have hle := Nat.mod_le num.toNat b
  apply BitVec.eq_of_toNat_eq
  rw [BitVec.toNat_umod, BitVec.toNat_ofNat, BitVec.toNat_ofNat, Nat.mod_eq_of_lt hb,
    Nat.mod_eq_of_lt (lt_of_le_of_lt hle num.isLt)]

/-- The digits come out in the order of `Nat.digits`. -/
theorem unsignedLoop_ok (hok : unsignedLoop c fuel num tmp = .ok tmp') :
    tmp' = tmp ++ (Nat.digits 10 num.toNat).map fun d =>
      c.mem (c.decDigits + BitVec.ofNat 64 d) := by
  induction fuel generalizing num tmp with
  | zero => cases hok
  | succ fuel ih =>
      rw [unsignedLoop] at hok
      by_cases hzero : num = 0#64
      · rw [if_pos hzero] at hok
        cases hok
        simp [hzero]
      · rw [if_neg hzero] at hok
        have hpos := BitVec.toNat_pos_of_ne_zero hzero
        rw [ih hok, Nat.digits_def' (by norm_num) hpos, umod_ofNat num (by norm_num),
          BitVec.toNat_udiv]
        simp

theorem unsignedLoop_returns (hfuel : (Nat.digits 10 num.toNat).length < fuel) :
    ∃ tmp', unsignedLoop c fuel num tmp = .ok tmp' := by
  induction fuel generalizing num tmp with
  | zero => omega
  | succ fuel ih =>
      rw [unsignedLoop]
      by_cases hzero : num = 0#64
      · rw [if_pos hzero]
        exact ⟨tmp, rfl⟩
      · rw [if_neg hzero]
        have hpos := BitVec.toNat_pos_of_ne_zero hzero
        rw [Nat.digits_def' (by norm_num) hpos, List.length_cons] at hfuel
        exact ih (by rw [BitVec.toNat_udiv]; exact Nat.lt_of_succ_lt_succ hfuel)

theorem unsignedTmp_ok (hok : unsignedTmp c fuel num = .ok tmp) :
    tmp.reverse = c.unsignedText num.toNat := by
  unfold unsignedTmp at hok
  have htmp := unsignedLoop_ok hok
  unfold Call.unsignedText
  by_cases hzero : num = 0#64
  · simp [htmp, hzero]
  · have hne := (BitVec.toNat_pos_of_ne_zero hzero).ne'
    simp [htmp, hzero, hne]

theorem digits_length_le (num : Word) : (Nat.digits 10 num.toNat).length ≤ 20 :=
  (Nat.digits_length_le_iff (by norm_num) _).mpr (lt_trans num.isLt (by norm_num))

theorem unsignedTmp_eq (hfuel : 20 < fuel) (num : Word) :
    unsignedTmp c fuel num = .ok (c.unsignedText num.toNat).reverse := by
  have hlength := digits_length_le num
  have hreturns : ∃ tmp, unsignedTmp c fuel num = .ok tmp := unsignedLoop_returns (by omega)
  obtain ⟨tmp, htmp⟩ := hreturns
  rw [htmp, ← unsignedTmp_ok htmp, List.reverse_reverse]

end Conversions

/-! ## One round -/

/-- What the conversion at a place puts behind the bytes stored before it. -/
def Call.write (c : Call) (fuel p arg : ℕ) (out : List Byte) : Except Fault (List Byte) :=
  match c.directive p with
  | .string => copyString c fuel (c.args arg) out
  | .unsigned =>
      (unsignedTmp c fuel (((c.args arg).setWidth 32).setWidth 64)).map (out ++ ·.reverse)
  | .longUnsigned => (unsignedTmp c fuel (c.args arg)).map (out ++ ·.reverse)
  | d => .ok (out ++ c.text p arg d)

section Round

variable {c : Call} {fuel p arg : ℕ} {out out' t : List Byte} {st : Cursor}

theorem round_eq_write : round c fuel ⟨out, p, arg⟩ = (c.write fuel p arg out).map fun out =>
    ⟨out, p + (c.directive p).chars, arg + (c.directive p).args⟩ := by
  by_cases hpercent : c.fmtAt p = 0x25#8
  swap
  · simp [round, Call.write, Call.directive, hpercent, Call.text]
    rfl
  rw [round, if_neg (not_not_intro hpercent)]
  simp only [conversion, Call.write, Call.directive, hpercent, ne_eq, not_true_eq_false, if_false,
    add_assoc]
  by_cases hs : c.fmtAt (p + 1) = 0x73#8
  · simp only [hs, if_true]
    cases copyString c fuel (c.args arg) out <;> rfl
  by_cases hd : c.fmtAt (p + 1) = 0x64#8
  · simp [hd, Cursor.emit, Call.text]
    rfl
  by_cases hx : c.fmtAt (p + 1) = 0x78#8
  · simp [hx, Cursor.emit, Call.text]
    rfl
  by_cases hu : c.fmtAt (p + 1) = 0x75#8
  · simp [hu, Cursor.emit]
    cases unsignedTmp c fuel (((c.args arg).setWidth 32).setWidth 64) <;> rfl
  by_cases hl : c.fmtAt (p + 1) = 0x6C#8 ∧ c.fmtAt (p + 2) = 0x6C#8
  swap
  · have hlong : ∀ ch, ¬ (c.fmtAt (p + 1) = 0x6C#8 ∧ c.fmtAt (p + 2) = 0x6C#8 ∧
        c.fmtAt (p + 3) = ch) := fun ch h => hl ⟨h.1, h.2.1⟩
    simp [hs, hd, hx, hu, hl, hlong, Call.text]
    rfl
  by_cases hllu : c.fmtAt (p + 3) = 0x75#8
  · simp [hl, hllu, Cursor.emit]
    cases unsignedTmp c fuel (c.args arg) <;> rfl
  by_cases hllx : c.fmtAt (p + 3) = 0x78#8
  · simp [hl, hllx, Cursor.emit, Call.text]
    rfl
  · simp [hl, hllu, hllx, Call.text]
    rfl

theorem write_eq (hne : c.directive p ≠ .string) (hfuel : 20 < fuel) :
    c.write fuel p arg out = .ok (out ++ c.text p arg (c.directive p)) := by
  unfold Call.write
  split
  · contradiction
  · simp [unsignedTmp_eq hfuel, Call.text, Except.map, *]
  · simp [unsignedTmp_eq hfuel, Call.text, Except.map, *]
  · rfl

theorem write_ok (hne : c.directive p ≠ .string) (hok : c.write fuel p arg out = .ok out') :
    out' = out ++ c.text p arg (c.directive p) := by
  unfold Call.write at hok
  split at hok
  · contradiction
  · obtain ⟨tmp, htmp, rfl⟩ := Loop.map_eq_ok.mp hok
    simp [unsignedTmp_ok htmp, Call.text, *]
  · obtain ⟨tmp, htmp, rfl⟩ := Loop.map_eq_ok.mp hok
    simp [unsignedTmp_ok htmp, Call.text, *]
  · cases hok
    rfl

/-- With enough room a directive is replaced by what it expands to. -/
theorem write_expands (ht : c.Expands p arg t) (hroom : (out ++ t).length < c.limit)
    (hfuel : c.limit + 20 < fuel) : c.write fuel p arg out = .ok (out ++ t) := by
  unfold Call.Expands at ht
  rw [List.length_append] at hroom
  by_cases hstring : c.directive p = .string
  · rw [if_pos hstring] at ht
    simp only [Call.write, hstring]
    exact copyString_of_string ht hroom (by omega)
  · rw [if_neg hstring] at ht
    rw [write_eq hstring (by omega), ht]

/-- What one round puts behind the bytes that are there. -/
structure Puts (c : Call) (p arg : ℕ) (out t : List Byte) : Prop where
  text : c.directive p ≠ .string → t = c.text p arg (c.directive p)
  bounded : c.directive p = .string → (out ++ t).length ≤ c.limit ∧ ∀ ch ∈ t, ch ≠ 0#8
  string : c.directive p = .string → (out ++ t).length < c.limit → StringAt c.mem (c.args arg) t

/-- A text that leaves room is all that its directive expands to. -/
theorem Puts.expands (hputs : Puts c p arg out t) (hroom : (out ++ t).length < c.limit) :
    c.Expands p arg t := by
  unfold Call.Expands
  split
  · rename_i hstring
    exact hputs.string hstring hroom
  · rename_i hne
    exact hputs.text hne

theorem write_puts (hok : c.write fuel p arg out = .ok out') (hroom : out.length < c.limit) :
    ∃ t, out' = out ++ t ∧ Puts c p arg out t := by
  by_cases hstring : c.directive p = .string
  · simp only [Call.write, hstring] at hok
    obtain ⟨t, rfl, hle, hne, hall⟩ := copyString_ok hok hroom.le
    exact ⟨t, rfl, fun h => absurd hstring h, fun _ => ⟨hle, hne⟩, fun _ => hall⟩
  · exact ⟨_, write_ok hstring hok, fun _ => rfl, fun h => absurd h hstring,
      fun h => absurd h hstring⟩

theorem round_puts (hok : round c fuel ⟨out, p, arg⟩ = .ok st) (hroom : out.length < c.limit) :
    ∃ t, st = ⟨out ++ t, p + (c.directive p).chars, arg + (c.directive p).args⟩ ∧
      Puts c p arg out t := by
  rw [round_eq_write] at hok
  obtain ⟨out', hwrite, rfl⟩ := Loop.map_eq_ok.mp hok
  obtain ⟨t, rfl, hputs⟩ := write_puts hwrite hroom
  exact ⟨t, rfl, hputs⟩

theorem round_returns (hfuel : c.limit + 20 < fuel) :
    ∃ st, round c fuel ⟨out, p, arg⟩ = .ok st := by
  have hwrite : ∃ out', c.write fuel p arg out = .ok out' := by
    by_cases hstring : c.directive p = .string
    · simp only [Call.write, hstring]
      exact copyString_returns (by omega)
    · exact ⟨_, write_eq hstring (by omega)⟩
  obtain ⟨out', hwrite⟩ := hwrite
  rw [round_eq_write, hwrite]
  exact ⟨_, rfl⟩

end Round

/-! ## The whole loop -/

/-- The cursors that the loop comes to. -/
inductive Reached (c : Call) (fuel : ℕ) : Cursor → Prop
  | start : Reached c fuel ⟨[], 0, 0⟩
  | next {st st' : Cursor} : Reached c fuel st → c.fmtAt st.fmt ≠ 0#8 → c.HasRoom st.out →
      round c fuel st = .ok st' → Reached c fuel st'

section Run

variable {c : Call} {fuel k p arg : ℕ} {out t : List Byte} {st st' : Cursor}

/-- The loop comes to every place of the format in front of which the buffer is not full. -/
theorem Visits.reached (hvisits : Visits c p arg out) (hroom : out.length < c.limit)
    (hfuel : c.limit + 20 < fuel) : Reached c fuel ⟨out, p, arg⟩ := by
  induction hvisits with
  | start => exact .start
  | @next p arg before text hvisits hp htext ih =>
      have hbefore : before.length < c.limit := by
        rw [List.length_append] at hroom
        omega
      apply (ih hbefore).next hp (hasRoom_iff.mpr hbefore)
      rw [round_eq_write, write_expands htext hroom hfuel]
      rfl

/-- A number is put out even when it does not fit. -/
theorem Visits.reached_next (hvisits : Visits c p arg out) (hp : c.fmtAt p ≠ 0#8)
    (hroom : out.length < c.limit) (hne : c.directive p ≠ .string) (hfuel : c.limit + 20 < fuel) :
    Reached c fuel ⟨out ++ c.text p arg (c.directive p), p + (c.directive p).chars,
      arg + (c.directive p).args⟩ := by
  apply (hvisits.reached hroom hfuel).next hp (hasRoom_iff.mpr hroom)
  rw [round_eq_write, write_eq hne (by omega)]
  rfl

/-- The last round before a cursor. -/
structure LastPut (c : Call) (p arg : ℕ) (before t : List Byte) : Prop where
  visits : Visits c p arg before
  fmt : c.fmtAt p ≠ 0#8
  room : before.length < c.limit
  puts : Puts c p arg before t

theorem Reached.visits (hreached : Reached c fuel st) (hroom : st.out.length < c.limit) :
    Visits c st.fmt st.arg st.out := by
  induction hreached with
  | start => exact .start
  | @next st st' hreached hp hgo hround ih =>
      have hlt := hasRoom_iff.mp hgo
      obtain ⟨t, rfl, hputs⟩ := round_puts hround hlt
      exact (ih hlt).next hp (hputs.expands hroom)

theorem Reached.lastPut (hreached : Reached c fuel st) (hp : c.fmtAt st.fmt ≠ 0#8)
    (hgo : c.HasRoom st.out) (hround : round c fuel st = .ok st') :
    ∃ t, LastPut c st.fmt st.arg st.out t ∧ st' = ⟨st.out ++ t,
      st.fmt + (c.directive st.fmt).chars, st.arg + (c.directive st.fmt).args⟩ := by
  have hlt := hasRoom_iff.mp hgo
  obtain ⟨t, rfl, hputs⟩ := round_puts hround hlt
  exact ⟨t, ⟨hreached.visits hlt, hp, hlt, hputs⟩, rfl⟩

theorem Reached.start_or (hreached : Reached c fuel st) :
    st = ⟨[], 0, 0⟩ ∨ ∃ p arg before t, LastPut c p arg before t ∧
      st = ⟨before ++ t, p + (c.directive p).chars, arg + (c.directive p).args⟩ := by
  cases hreached with
  | start => exact .inl rfl
  | next hreached hp hgo hround =>
      obtain ⟨t, hlast, rfl⟩ := hreached.lastPut hp hgo hround
      exact .inr ⟨_, _, _, t, hlast, rfl⟩

theorem Reached.loop_ok (hreached : Reached c fuel st)
    (hok : vsnprintfLoop c fuel k st = .ok st') :
    Reached c fuel st' ∧ (c.fmtAt st'.fmt = 0#8 ∨ c.limit ≤ st'.out.length) := by
  induction k generalizing st with
  | zero => cases hok
  | succ k ih =>
      rw [vsnprintfLoop] at hok
      split at hok
      · rename_i hgo
        obtain ⟨st'', hround, hrest⟩ := Loop.bind_eq_ok.mp hok
        exact ih (hreached.next hgo.1 hgo.2 hround) hrest
      · rename_i hstop
        cases hok
        refine ⟨hreached, ?_⟩
        rw [hasRoom_iff, not_and_or, not_not, not_lt] at hstop
        exact hstop

/-- A call that returns comes past every cursor reached. -/
theorem Reached.loop_passes (hreached : Reached c fuel st)
    (hok : vsnprintfLoop c fuel k ⟨[], 0, 0⟩ = .ok st') :
    ∃ k', vsnprintfLoop c fuel k' st = .ok st' := by
  induction hreached with
  | start => exact ⟨k, hok⟩
  | @next st st'' hreached hp hroom hround ih =>
      obtain ⟨k', hk'⟩ := ih
      cases k' with
      | zero => cases hk'
      | succ k' =>
          rw [vsnprintfLoop, if_pos ⟨hp, hroom⟩, hround] at hk'
          exact ⟨k', hk'⟩

/-- What is stored stays in front of what follows. -/
theorem loop_extends (hok : vsnprintfLoop c fuel k st = .ok st') : st.out <+: st'.out := by
  induction k generalizing st with
  | zero => cases hok
  | succ k ih =>
      rw [vsnprintfLoop] at hok
      split at hok
      · rename_i hgo
        obtain ⟨st'', hround, hrest⟩ := Loop.bind_eq_ok.mp hok
        obtain ⟨t, rfl, -⟩ := round_puts hround (hasRoom_iff.mp hgo.2)
        exact (List.prefix_append _ _).trans (ih hrest)
      · cases hok
        exact List.prefix_rfl

end Run

end Osiris.Printk
