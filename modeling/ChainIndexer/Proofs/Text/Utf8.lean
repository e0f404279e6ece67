import ChainIndexer.Proofs.Text

namespace ChainIndexer.Text

def utf8 (s : List Char) : List UInt8 := s.flatMap String.utf8EncodeChar

def Ascii (s : List Char) : Prop := ∀ c ∈ s, c.val ≤ 127

/-- How many characters stand before the offset, if it is one between two characters. -/
def boundary? : List Char → Nat → Option Nat
  | [], k => if k = 0 then some 0 else none
  | c :: r, k =>
    if k = 0 then some 0
    else if c.utf8Size ≤ k then (boundary? r (k - c.utf8Size)).map (· + 1)
    else none

def slice? (s : List Char) (i j : Nat) : Option (List Char) := do
  guard (i ≤ j)
  let m ← boundary? s i
  let n ← boundary? s j
  some ((s.take n).drop m)

variable {p s : List Char} {c : Char} {k m n : Nat}

theorem ascii_of_all (h : s.all fun c => decide (c.val ≤ 127)) : Ascii s :=
  fun c hc => of_decide_eq_true (List.all_eq_true.mp h c hc)

theorem utf8_append (s t : List Char) : utf8 (s ++ t) = utf8 s ++ utf8 t := List.flatMap_append

theorem utf8_cons (c : Char) (r : List Char) : utf8 (c :: r) = String.utf8EncodeChar c ++ utf8 r :=
  List.flatMap_cons

theorem encode_ascii (h : c.val ≤ 127) : String.utf8EncodeChar c = [c.val.toUInt8] :=
  String.utf8EncodeChar_eq_singleton (Char.utf8Size_eq_one_iff.mpr h)

theorem high_of_mem_encode (h : ¬c.val ≤ 127) {b : UInt8} (hb : b ∈ String.utf8EncodeChar c) :
    128 ≤ b.toNat := by
  have hlow : ¬c.val.toNat ≤ 127 := h
  simp only [String.utf8EncodeChar, if_neg hlow] at hb
  split at hb
  · simp only [List.mem_cons, List.not_mem_nil, or_false] at hb
    rcases hb with rfl | rfl <;> simp only [UInt8.toNat_ofNat'] <;> omega
  · split at hb
    · simp only [List.mem_cons, List.not_mem_nil, or_false] at hb
      rcases hb with rfl | rfl | rfl <;> simp only [UInt8.toNat_ofNat'] <;> omega
    · simp only [List.mem_cons, List.not_mem_nil, or_false] at hb
      rcases hb with rfl | rfl | rfl | rfl <;> simp only [UInt8.toNat_ofNat'] <;> omega

theorem toNat_ascii_byte (h : c.val ≤ 127) : c.val.toUInt8.toNat = c.val.toNat := by
  have hle : c.val.toNat ≤ 127 := h
  rw [UInt32.toNat_toUInt8]
  omega

theorem utf8_prefix (h : p <+: s) : utf8 p <+: utf8 s := by
  obtain ⟨r, rfl⟩ := h
  rw [utf8_append]
  exact List.prefix_append _ _

theorem encode_ne_nil (c : Char) : String.utf8EncodeChar c ≠ [] := by
  rw [← List.length_pos_iff, String.length_utf8EncodeChar]
  exact c.utf8Size_pos

theorem not_prefix_of_high {d : Char} {q : List Char} {bytes more : List UInt8}
    (hd : d.val ≤ 127) (hne : bytes ≠ []) (high : ∀ b ∈ bytes, 128 ≤ b.toNat) :
    ¬utf8 (d :: q) <+: bytes ++ more := by
  intro h
  obtain ⟨b, bs, rfl⟩ := List.exists_cons_of_ne_nil hne
  rw [utf8_cons, encode_ascii hd] at h
  have hb := high b (List.mem_cons_self ..)
  rw [← (List.cons_prefix_cons.mp h).1, toNat_ascii_byte hd] at hb
  exact absurd (hb.trans hd) (by decide)

theorem prefix_of_utf8 (hp : Ascii p) (h : utf8 p <+: utf8 s) : p <+: s := by
  induction p generalizing s with
  | nil => exact List.nil_prefix
  | cons d q ih =>
    have hd := hp d (List.mem_cons_self ..)
    cases s with
    | nil =>
      rw [utf8_cons, encode_ascii hd] at h
      exact absurd (List.prefix_nil.mp h) (List.cons_ne_nil _ _)
    | cons c r =>
      by_cases hc : c.val ≤ 127
      · rw [utf8_cons, utf8_cons, encode_ascii hd, encode_ascii hc] at h
        obtain ⟨hbyte, hrest⟩ := List.cons_prefix_cons.mp h
        have hval := congrArg UInt8.toNat hbyte
        rw [toNat_ascii_byte hd, toNat_ascii_byte hc] at hval
        exact List.cons_prefix_cons.mpr ⟨Char.ext (UInt32.toNat_inj.mp hval),
          ih (fun e he => hp e (List.mem_cons_of_mem _ he)) hrest⟩
      · rw [utf8_cons c] at h
        exact absurd h (not_prefix_of_high hd (encode_ne_nil c) fun b => high_of_mem_encode hc)

theorem exists_boundary (hp : Ascii p) (hne : p ≠ []) (h : utf8 p <+: (utf8 s).drop k) :
    ∃ n ≤ s.length, (utf8 (s.take n)).length = k ∧ p <+: s.drop n := by
  obtain ⟨d, q, rfl⟩ := List.exists_cons_of_ne_nil hne
  have hd := hp d (List.mem_cons_self ..)
  induction s generalizing k with
  | nil =>
    have hnil : (utf8 ([] : List Char)).drop k = [] := List.drop_nil
    rw [hnil, utf8_cons, encode_ascii hd] at h
    exact absurd (List.prefix_nil.mp h) (List.cons_ne_nil _ _)
  | cons c r ih =>
    rcases Nat.eq_zero_or_pos k with rfl | hpos
    · exact ⟨0, Nat.zero_le _, rfl, prefix_of_utf8 hp h⟩
    rw [utf8_cons c, List.drop_append] at h
    rcases Nat.lt_or_ge k (String.utf8EncodeChar c).length with hinside | hpast
    · have hc : ¬c.val ≤ 127 := by
        intro hc
        rw [encode_ascii hc, List.length_singleton] at hinside
        omega
      have hleft : (String.utf8EncodeChar c).drop k ≠ [] := by
        rwa [Ne, List.drop_eq_nil_iff, Nat.not_le]
      exact absurd h (not_prefix_of_high hd hleft
        fun b hb => high_of_mem_encode hc (List.mem_of_mem_drop hb))
    · rw [List.drop_eq_nil_of_le hpast, List.nil_append] at h
      obtain ⟨n, hn, hlength, hhere⟩ := ih h
      refine ⟨n + 1, Nat.succ_le_succ hn, ?_, hhere⟩
      rw [List.take_succ_cons, utf8_cons, List.length_append, hlength]
      omega

theorem drop_utf8_take (s : List Char) (n : Nat) :
    (utf8 s).drop (utf8 (s.take n)).length = utf8 (s.drop n) := by
  conv_lhs => rw [← List.take_append_drop n s, utf8_append]
  rw [List.take_append_drop, List.drop_left]

theorem length_utf8_take_lt (h : m < n) (hn : n ≤ s.length) :
    (utf8 (s.take m)).length < (utf8 (s.take n)).length := by
  induction n with
  | zero => exact absurd h (Nat.not_lt_zero m)
  | succ n ih =>
    have hstep : (utf8 (s.take n)).length < (utf8 (s.take (n + 1))).length := by
      rw [← List.take_append_getElem hn, utf8_append, List.length_append, utf8_cons,
        List.length_append, String.length_utf8EncodeChar]
      have := s[n].utf8Size_pos
      omega
    rcases Nat.lt_succ_iff_lt_or_eq.mp h with hm | rfl
    · exact (ih hm (Nat.le_of_succ_le hn)).trans hstep
    · exact hstep

theorem length_utf8_take_le (h : m ≤ n) (hn : n ≤ s.length) :
    (utf8 (s.take m)).length ≤ (utf8 (s.take n)).length := by
  rcases h.eq_or_lt with rfl | hlt
  · exact Nat.le_refl _
  · exact (length_utf8_take_lt hlt hn).le

theorem firstAt_utf8_iff (hp : Ascii p) (hne : p ≠ []) :
    FirstAt (utf8 p) (utf8 s) k ↔
      ∃ n ≤ s.length, (utf8 (s.take n)).length = k ∧ FirstAt p s n := by
  constructor
  · rintro ⟨here, first⟩
    obtain ⟨n, hn, rfl, hhere⟩ := exists_boundary hp hne here
    refine ⟨n, hn, rfl, hhere, fun m hm hbefore => ?_⟩
    apply first _ (length_utf8_take_lt hm hn)
    rw [drop_utf8_take]
    exact utf8_prefix hbefore
  · rintro ⟨n, hn, rfl, here, first⟩
    refine ⟨?_, fun k hk hbefore => ?_⟩
    · rw [drop_utf8_take]
      exact utf8_prefix here
    · obtain ⟨m, hm, rfl, hearlier⟩ := exists_boundary hp hne hbefore
      rcases Nat.lt_or_ge m n with hlt | hge
      · exact first m hlt hearlier
      · exact absurd hk (Nat.not_lt.mpr (length_utf8_take_le hge hm))

theorem utf8Size_asciiUpper (c : Char) : (asciiUpper c).utf8Size = c.utf8Size := by
  unfold asciiUpper
  split
  next hlower =>
    have hc : c.val ≤ 127 :=
      UInt32.le_iff_toNat_le.mpr ((isLower_iff_toNat.mp hlower).2.trans (by decide))
    have hupper : c.toUpper.val ≤ 127 :=
      UInt32.le_iff_toNat_le.mpr
        ((isUpper_iff_toNat.mp (isUpper_toUpper hlower)).2.trans (by decide))
    rw [Char.utf8Size_eq_one_iff.mpr hc, Char.utf8Size_eq_one_iff.mpr hupper]
  next => rfl

theorem length_utf8_asciiUppercase (s : List Char) :
    (utf8 (asciiUppercase s)).length = (utf8 s).length := by
  induction s with
  | nil => rfl
  | cons c r ih =>
    rw [asciiUppercase, List.map_cons, utf8_cons, utf8_cons, List.length_append, List.length_append,
      String.length_utf8EncodeChar, String.length_utf8EncodeChar, utf8Size_asciiUpper]
    exact congrArg _ ih

theorem boundary?_take (h : n ≤ s.length) : boundary? s (utf8 (s.take n)).length = some n := by
  induction n generalizing s with
  | zero => cases s <;> rfl
  | succ n ih =>
    cases s with
    | nil => exact absurd h (Nat.not_succ_le_zero n)
    | cons c r =>
      have hsize := c.utf8Size_pos
      have hlength : (utf8 ((c :: r).take (n + 1))).length =
          c.utf8Size + (utf8 (r.take n)).length := by
        rw [List.take_succ_cons, utf8_cons, List.length_append, String.length_utf8EncodeChar]
      rw [hlength, boundary?, if_neg (by omega), if_pos (Nat.le_add_right _ _),
        Nat.add_sub_cancel_left, ih (Nat.le_of_succ_le_succ h)]
      rfl

theorem slice?_take (hm : m ≤ n) (hn : n ≤ s.length) :
    slice? s (utf8 (s.take m)).length (utf8 (s.take n)).length = some ((s.take n).drop m) := by
  rw [slice?, boundary?_take (hm.trans hn), boundary?_take hn]
  simp [guard, length_utf8_take_le hm hn]

end ChainIndexer.Text
