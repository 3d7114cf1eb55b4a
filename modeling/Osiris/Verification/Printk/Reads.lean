import Osiris.Verification.Printk.Bounds

/-! # The format of `vsnprintf`

The scanner looks up to three characters ahead, each only when the one before it is a character of a
conversion. So it stays in front of the NUL unless it takes the NUL itself for a conversion. -/

namespace Osiris.Printk

open ByteMemory Heap Numerals
open Tar (StringAt)

/-! ## What is read -/

/-- The places that are read to tell the conversions from each other. -/
def Call.lookahead (c : Call) (p : ℕ) : List ℕ :=
  if c.fmtAt p ≠ 0x25#8 then []
  else if c.fmtAt (p + 1) ≠ 0x6C#8 then [p + 1]
  else if c.fmtAt (p + 2) ≠ 0x6C#8 then [p + 1, p + 2]
  else [p + 1, p + 2, p + 3]

/-- The places of the format that one round reads. -/
def Call.reads (c : Call) (st : Cursor) : List ℕ :=
  if c.fmtAt st.fmt ≠ 0#8 ∧ c.HasRoom st.out then st.fmt :: c.lookahead st.fmt else [st.fmt]

/-- Nothing behind place `n` of the format is read, the call returns, and what it returns is the
length of the string that it stores. -/
structure ReadsWithin (c : Call) (n : ℕ) : Prop where
  reads : ∀ fuel st, Reached c fuel st → ∀ i ∈ c.reads st, i ≤ n
  returns : ∃ least, ∀ fuel, least ≤ fuel → ∃ result, vsnprintf c fuel = .ok result
  count : ∀ fuel returned stored, vsnprintf c fuel = .ok (returned, stored) →
    returned.toInt = (stored.takeWhile (· ≠ 0#8)).length

/-! ## Formats that are read correctly -/

/-- What has to hold of the directives that the loop comes to. -/
structure Sound (c : Call) : Prop where
  /-- No `%` is the last character. -/
  complete : ∀ p arg n, Places c p arg n → n + 1 < c.size.toNat → c.fmtAt p = 0x25#8 →
    c.fmtAt (p + 1) ≠ 0#8
  /-- In front of the table there is no NUL where a digit of a negative number is looked up. -/
  negative : ∀ p arg n base, Places c p arg n → n + 1 < c.size.toNat →
    c.directive p = .signed base → ((c.args arg).setWidth 32).toInt < 0 →
    ∀ d ∈ Nat.digits base.toNat ((c.args arg).setWidth 32).toInt.natAbs,
      c.mem (c.hexDigits - BitVec.ofNat 64 d) ≠ 0#8
  /-- The output can be counted in an `int`. -/
  count : ∀ p arg n, Places c p arg n → n + 1 < c.size.toNat → (c.directive p).IsNumber →
    n + c.width arg (c.directive p) < 2 ^ 31

section Places

variable {c : Call} {text : List Byte} {p i : ℕ}

theorem fmtAt_length (hfmt : StringAt c.mem c.fmt text) : c.fmtAt text.length = 0#8 :=
  hfmt.apply_length

/-- The NUL is the first one. -/
theorem length_le_of_fmtAt (hfmt : StringAt c.mem c.fmt text) (hp : c.fmtAt p = 0#8) :
    text.length ≤ p := by
  by_contra hlt
  exact hfmt.apply_ne_zero (not_le.mp hlt) hp

theorem succ_le_of_fmtAt (hfmt : StringAt c.mem c.fmt text) (hle : p ≤ text.length)
    (hp : c.fmtAt p ≠ 0#8) : p + 1 ≤ text.length := by
  by_contra hlt
  obtain rfl : p = text.length := by omega
  exact hp (fmtAt_length hfmt)

/-- A conversion of four characters has two of them behind the first `l`. -/
theorem chars_le_or (c : Call) (p : ℕ) : (c.directive p).chars ≤ 2 ∨
    (c.directive p).chars = 4 ∧ c.fmtAt (p + 2) ≠ 0#8 ∧ c.fmtAt (p + 3) ≠ 0#8 := by
  unfold Call.directive
  split_ifs <;> simp_all

theorem chars_le (hfmt : StringAt c.mem c.fmt text) (hle : p ≤ text.length)
    (hp : c.fmtAt p ≠ 0#8) (hwhole : c.fmtAt p = 0x25#8 → c.fmtAt (p + 1) ≠ 0#8) :
    p + (c.directive p).chars ≤ text.length := by
  have h1 := succ_le_of_fmtAt hfmt hle hp
  by_cases hpercent : c.fmtAt p = 0x25#8
  · have h2 := succ_le_of_fmtAt hfmt h1 (hwhole hpercent)
    rcases chars_le_or c p with hshort | ⟨hfour, hl, hlast⟩
    · omega
    · have h3 := succ_le_of_fmtAt hfmt h2 hl
      have h4 := succ_le_of_fmtAt hfmt h3 hlast
      omega
  · simpa [Call.directive, hpercent] using h1

theorem lookahead_le (hfmt : StringAt c.mem c.fmt text) (hle : p ≤ text.length)
    (hp : c.fmtAt p ≠ 0#8) (hi : i ∈ c.lookahead p) : i ≤ text.length := by
  have h1 := succ_le_of_fmtAt hfmt hle hp
  unfold Call.lookahead at hi
  split_ifs at hi with hpercent hl hll
  · cases hi
  · rw [List.mem_singleton.mp hi]
    exact h1
  · have h2 := succ_le_of_fmtAt hfmt h1 (by rw [not_not.mp hl]; decide)
    simp only [List.mem_cons, List.not_mem_nil, or_false] at hi
    omega
  · have h2 := succ_le_of_fmtAt hfmt h1 (by rw [not_not.mp hl]; decide)
    have h3 := succ_le_of_fmtAt hfmt h2 (by rw [not_not.mp hll]; decide)
    simp only [List.mem_cons, List.not_mem_nil, or_false] at hi
    omega

end Places

/-! ## What is stored -/

section Stored

variable {c : Call} {fuel k p arg : ℕ} {before t text : List Byte} {st st' : Cursor}

theorem digitChars_ne_zero {b : ℕ} (hb : b ≤ 16) {digits : List ℕ} (hdigits : ∀ d ∈ digits, d < b) :
    ∀ ch ∈ digits.map digitChar, ch ≠ 0#8 := by
  intro ch hch
  obtain ⟨d, hd, rfl⟩ := List.mem_map.mp hch
  exact digitChar_ne_zero (lt_of_lt_of_le (hdigits d hd) hb)

/-- A round begins at a place of the format with room for a character. -/
theorem LastPut.place (hlast : LastPut c p arg before t) (hsize : 1 ≤ c.size.toInt) :
    Places c p arg before.length ∧ before.length + 1 < c.size.toNat := by
  obtain ⟨hlimit, -⟩ := limit_eq hsize
  have hroom := hlast.room
  exact ⟨hlast.visits.places, by omega⟩

theorem LastPut.ne_zero (hlast : LastPut c p arg before t) (hsize : 1 ≤ c.size.toInt)
    (hloaded : c.Loaded) (hsound : Sound c) : ∀ ch ∈ t, ch ≠ 0#8 := by
  obtain ⟨hplaces, hroom⟩ := hlast.place hsize
  by_cases hstring : c.directive p = .string
  · exact (hlast.puts.bounded hstring).2
  rw [hlast.puts.text hstring]
  cases hdir : c.directive p with
  | string => contradiction
  | literal => simpa [Call.text] using hlast.fmt
  | other =>
      have hpercent : c.fmtAt p = 0x25#8 := by
        by_contra hne
        simp [Call.directive, hne] at hdir
      simpa [Call.text] using hsound.complete p arg _ hplaces hroom hpercent
  | unsigned =>
      rw [Call.text, hloaded.unsignedText]
      exact digitChars_ne_zero (by norm_num) (numeral_lt (by norm_num))
  | longUnsigned =>
      rw [Call.text, hloaded.unsignedText]
      exact digitChars_ne_zero (by norm_num) (numeral_lt (by norm_num))
  | longHex =>
      rw [Call.text, hloaded.hexText]
      exact digitChars_ne_zero le_rfl (padded_lt (by norm_num))
  | signed base =>
      obtain ⟨b, rfl, hb⟩ := base_of_directive hdir
      rw [Call.text]
      rcases lt_or_ge ((c.args arg).setWidth 32).toInt 0 with hneg | hpos
      · intro ch hch
        rw [List.mem_reverse, signedTmp_neg c hb hneg] at hch
        obtain ⟨d, hd, rfl⟩ := List.mem_map.mp hch
        exact hsound.negative p arg _ _ hplaces hroom hdir hneg d (by rwa [toNat_base hb])
      · rw [hloaded.signedText hb hpos]
        exact digitChars_ne_zero (b := b) (by omega) fun d hd =>
          Nat.digits_lt_base (by omega) (List.mem_reverse.mp hd)

theorem Reached.ne_zero (hreached : Reached c fuel st) (hsize : 1 ≤ c.size.toInt)
    (hloaded : c.Loaded) (hsound : Sound c) : ∀ ch ∈ st.out, ch ≠ 0#8 := by
  induction hreached with
  | start => simp
  | next hreached hp hgo hround ih =>
      obtain ⟨t, hlast, rfl⟩ := hreached.lastPut hp hgo hround
      intro ch hch
      rcases List.mem_append.mp hch with hch | hch
      · exact ih ch hch
      · exact hlast.ne_zero hsize hloaded hsound ch hch

theorem Reached.fmt_le (hreached : Reached c fuel st) (hsize : 1 ≤ c.size.toInt)
    (hfmt : StringAt c.mem c.fmt text) (hsound : Sound c) : st.fmt ≤ text.length := by
  induction hreached with
  | start => exact Nat.zero_le _
  | next hreached hp hgo hround ih =>
      obtain ⟨t, hlast, rfl⟩ := hreached.lastPut hp hgo hround
      obtain ⟨hplaces, hroom⟩ := hlast.place hsize
      exact chars_le hfmt ih hp (hsound.complete _ _ _ hplaces hroom)

/-- Only the last number can go past the limit. -/
theorem Reached.length_le_add (hreached : Reached c fuel st) : st.out.length ≤ c.limit + 20 := by
  rcases hreached.start_or with rfl | ⟨p, arg, before, t, hlast, rfl⟩
  · exact Nat.zero_le _
  · by_cases hd : (c.directive p).IsNumber
    · have hroom := hlast.room
      have hwidth := width_le c p arg
      rw [hlast.length_number hd]
      omega
    · exact le_trans (hlast.length_le hd) (Nat.le_add_right _ _)

theorem Reached.length_lt (hreached : Reached c fuel st) (hsize : 1 ≤ c.size.toInt)
    (hsound : Sound c) : st.out.length < 2 ^ 31 := by
  obtain ⟨hlimit, hint⟩ := limit_eq hsize
  have hwide := BitVec.toInt_lt (x := c.size)
  rcases hreached.start_or with rfl | ⟨p, arg, before, t, hlast, rfl⟩
  · exact Nat.two_pow_pos 31
  · by_cases hd : (c.directive p).IsNumber
    · rw [hlast.length_number hd]
      obtain ⟨hplaces, hroom⟩ := hlast.place hsize
      exact hsound.count p arg _ hplaces hroom hd
    · exact lt_of_le_of_lt (hlast.length_le hd) (by omega)

theorem loop_returns (hreached : Reached c fuel st) (hsize : 1 ≤ c.size.toInt)
    (hfmt : StringAt c.mem c.fmt text) (hsound : Sound c) (hfuel : c.limit + 20 < fuel)
    (hk : text.length - st.fmt < k) : ∃ st', vsnprintfLoop c fuel k st = .ok st' := by
  induction k generalizing st with
  | zero => omega
  | succ k ih =>
      rw [vsnprintfLoop]
      split
      · rename_i hgo
        have hreturns : ∃ st', round c fuel st = .ok st' := round_returns hfuel
        obtain ⟨st', hround⟩ := hreturns
        have hnext := hreached.next hgo.1 hgo.2 hround
        have hle := hnext.fmt_le hsize hfmt hsound
        obtain ⟨t, -, rfl⟩ := hreached.lastPut hgo.1 hgo.2 hround
        have hchars : 0 < (c.directive st.fmt).chars := by
          cases c.directive st.fmt <;> simp
        obtain ⟨st', hrest⟩ := ih hnext (by dsimp only at hle ⊢; omega)
        exact ⟨st', by rw [hround]; exact hrest⟩
      · exact ⟨st, rfl⟩

end Stored

/-! ## Where it goes wrong -/

section Wrong

variable {c : Call} {fuel n p arg : ℕ} {before text : List Byte} {st : Cursor}

/-- What is stored at a place that is reached is stored in the end, and counted. -/
theorem ReadsWithin.stored (hwithin : ReadsWithin c n)
    (hreached : ∀ fuel, c.limit + 20 < fuel → Reached c fuel st) :
    ∃ out, st.out <+: out ∧ out.length ≤ c.limit + 20 ∧
      (BitVec.ofNat 32 out.length).toInt = ((out ++ [0#8]).takeWhile (· ≠ 0#8)).length := by
  obtain ⟨least, hreturns⟩ := hwithin.returns
  obtain ⟨⟨returned, stored⟩, hok⟩ := hreturns (max least (c.limit + 21)) (le_max_left _ _)
  have hst := hreached (max least (c.limit + 21)) (by omega)
  obtain ⟨st', hloop, rfl, rfl⟩ := vsnprintf_ok hok
  obtain ⟨k, hrest⟩ := hst.loop_passes hloop
  exact ⟨st'.out, loop_extends hrest, (Reached.start.loop_ok hloop).1.length_le_add,
    hwithin.count _ _ _ hok⟩

theorem toInt_count {count : ℕ} (hcount : count < 2 ^ 32) :
    (BitVec.ofNat 32 count).toInt = if count < 2 ^ 31 then (count : ℤ) else count - 2 ^ 32 := by
  have hint := BitVec.toInt_eq_toNat_cond (BitVec.ofNat 32 count)
  rw [BitVec.toNat_ofNat, Nat.mod_eq_of_lt hcount] at hint
  rw [hint]
  split_ifs <;> omega

/-- A NUL among the characters ends the string before the count does. -/
theorem takeWhile_length_lt {out : List Byte} (hnul : 0#8 ∈ out) (rest : List Byte) :
    ((out ++ rest).takeWhile (· ≠ 0#8)).length < out.length := by
  induction out with
  | nil => cases hnul
  | cons ch out ih =>
      by_cases hch : ch = 0#8
      · simp [hch]
      · have htail : 0#8 ∈ out := by simpa [Ne.symm hch] using hnul
        simpa [hch] using ih htail

theorem takeWhile_of_ne_zero {out : List Byte} (hne : ∀ ch ∈ out, ch ≠ 0#8) :
    (out ++ [0#8]).takeWhile (· ≠ 0#8) = out := by
  rw [List.takeWhile_append_of_pos (by simpa using hne)]
  simp

theorem ReadsWithin.sound (hwithin : ReadsWithin c text.length) (hsize : 1 ≤ c.size.toInt)
    (hfmt : StringAt c.mem c.fmt text) : Sound c := by
  obtain ⟨hlimit, hint⟩ := limit_eq hsize
  have hwide := BitVec.toInt_lt (x := c.size)
  refine ⟨?complete, ?negative, ?count⟩
  case complete =>
    intro p arg n hplaces hroom hpercent hnul
    obtain ⟨before, hvisits, rfl⟩ := hplaces.visits
    have hother : c.directive p = .other := by
      simp [Call.directive, hpercent, hnul]
    have hreached := hvisits.reached_next (fmtAt_ne_zero (by simp [hother])) (by omega)
      (by simp [hother]) (Nat.lt_succ_self (c.limit + 20))
    have hread : p + (c.directive p).chars ≤ text.length := by
      apply hwithin.reads _ _ hreached
      unfold Call.reads
      split <;> simp
    have hend := length_le_of_fmtAt hfmt hnul
    have hchars : (c.directive p).chars = 2 := by simp [hother]
    omega
  case negative =>
    intro p arg n base hplaces hroom hdir hneg d hd hnul
    obtain ⟨before, hvisits, rfl⟩ := hplaces.visits
    obtain ⟨b, rfl, hb⟩ := base_of_directive hdir
    have htext : 0#8 ∈ c.text p arg (c.directive p) := by
      rw [hdir, Call.text, List.mem_reverse, signedTmp_neg c hb hneg, ← hnul]
      rw [toNat_base hb] at hd
      exact List.mem_map_of_mem hd
    obtain ⟨out, hfront, hle, hcount⟩ := hwithin.stored fun fuel hfuel =>
      hvisits.reached_next (fmtAt_ne_zero (by simp [hdir])) (by omega) (by simp [hdir]) hfuel
    have hnul := takeWhile_length_lt (hfront.subset (List.mem_append_right _ htext)) [0#8]
    rw [toInt_count (by omega)] at hcount
    split at hcount <;> omega
  case count =>
    intro p arg n hplaces hroom hd
    obtain ⟨before, hvisits, rfl⟩ := hplaces.visits
    by_contra hlong
    obtain ⟨out, hfront, hle, hcount⟩ := hwithin.stored fun fuel hfuel =>
      hvisits.reached_next (fmtAt_ne_zero hd.ne_literal) (by omega) hd.ne_string hfuel
    have hlength := hfront.length_le
    rw [List.length_append, length_text hd.ne_string] at hlength
    rw [toInt_count (by omega)] at hcount
    split at hcount <;> omega

end Wrong

/-- `vsnprintf` keeps to its format exactly when it comes to no `%` at the end of it. For its count
to be right, the digits of negative numbers must not be NULs, and numbers must not go past the range
of `int`. -/
theorem vsnprintf_reads_within_iff (c : Call) (text : List Byte) (hsize : 1 ≤ c.size.toInt)
    (hloaded : c.Loaded) (hfmt : StringAt c.mem c.fmt text) :
    ReadsWithin c text.length ↔ Sound c := by
  refine ⟨fun hwithin => hwithin.sound hsize hfmt, fun hsound => ⟨?reads, ?returns, ?count⟩⟩
  case reads =>
    intro fuel st hreached i hi
    have hle := hreached.fmt_le hsize hfmt hsound
    unfold Call.reads at hi
    split at hi
    · rename_i hgo
      rcases List.mem_cons.mp hi with rfl | hi
      · exact hle
      · exact lookahead_le hfmt hle hgo.1 hi
    · rw [List.mem_singleton.mp hi]
      exact hle
  case returns =>
    refine ⟨text.length + c.limit + 21, fun fuel hfuel => ?_⟩
    have hreturns : ∃ st, vsnprintfLoop c fuel fuel ⟨[], 0, 0⟩ = .ok st :=
      loop_returns .start hsize hfmt hsound (by omega) (by dsimp only; omega)
    obtain ⟨st, hloop⟩ := hreturns
    refine ⟨(BitVec.ofNat 32 st.out.length, st.out ++ [0#8]), ?_⟩
    rw [vsnprintf, hloop]
    rfl
  case count =>
    intro fuel returned stored hok
    obtain ⟨st, hloop, rfl, rfl⟩ := vsnprintf_ok hok
    obtain ⟨hreached, -⟩ := Reached.start.loop_ok hloop
    have hlt := hreached.length_lt hsize hsound
    have hne := hreached.ne_zero hsize hloaded hsound
    rw [takeWhile_of_ne_zero hne, toInt_count (by omega), if_pos hlt]

theorem vsnprintf_reads_within_ten : ReadsWithin (tenCall 3#32) 2 := by
  refine (vsnprintf_reads_within_iff (tenCall 3#32) [0x25#8, 0x75#8] (by decide)
    (sampleCall_loaded _ _ _) (by decide +kernel)).mpr ⟨?complete, ?negative, ?count⟩
  case complete =>
    intro p arg n hplaces hroom hpercent
    rcases tenCall_places hplaces with ⟨rfl, -⟩ | rfl
    · decide +kernel
    · rw [tenCall_end] at hpercent
      cases hpercent
  case negative =>
    intro p arg n base hplaces hroom hdir
    rcases tenCall_places hplaces with ⟨rfl, -⟩ | rfl
    · simp [tenCall_directive] at hdir
    · exact absurd (tenCall_end 3#32) (fmtAt_ne_zero (by simp [hdir]))
  case count =>
    intro p arg n hplaces hroom hd
    have hsize : (tenCall 3#32).size.toNat = 3 := rfl
    have hwidth := width_le (tenCall 3#32) p arg
    omega

/-- The format `%`. -/
def percentCall : Call :=
  sampleCall 10#32 [0x25#8] fun _ => 0#64

/-- The scanner steps over the NUL, and the string that is counted as one character is empty. -/
theorem vsnprintf_reads_past_end :
    StringAt percentCall.mem percentCall.fmt [0x25#8] ∧
      (∃ st, Reached percentCall 64 st ∧ 2 ∈ percentCall.reads st) ∧
      vsnprintf percentCall 64 = .ok (1#32, [0x00#8, 0x00#8]) ∧ ¬ ReadsWithin percentCall 1 := by
  have hreached : Reached percentCall 64 ⟨[0x00#8], 2, 0⟩ :=
    Reached.start.next (by decide +kernel) (by decide +kernel) (by decide +kernel)
  have hread : 2 ∈ percentCall.reads ⟨[0x00#8], 2, 0⟩ := by decide +kernel
  refine ⟨by decide +kernel, ⟨_, hreached, hread⟩, by decide +kernel, fun hwithin => ?_⟩
  exact absurd (hwithin.reads _ _ hreached _ hread) (by decide)

end Osiris.Printk
