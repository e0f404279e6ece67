import ChainIndexer.Partition.Bound
import ChainIndexer.Proofs.Text.Utf8
import Mathlib.Data.List.Count

namespace ChainIndexer.Partition.Bound

open Text

variable {s lead x y tail : List Char} {a b k : Nat} {n f t : Int}

def Blanks (s : List Char) : Prop := ∀ c ∈ s, isBlank c

def Quotes (s : List Char) : Prop := ∀ c ∈ s, c = '\''

inductive Padded : List Char → Int → Prop
  | mk {before opened digits closed after n} (front : Blanks before) (opens : Quotes opened)
      (literal : Literal digits n) (inRange : Int64Range.Holds n) (closes : Quotes closed)
      (back : Blanks after) : Padded (before ++ (opened ++ digits ++ closed) ++ after) n

def isSign (c : Char) : Bool := c.isDigit || c == '+' || c == '-'

theorem isBlank_eq_false {c : Char} (h : isSign c) : isBlank c = false := by
  simp only [isSign, Bool.or_eq_true, beq_iff_eq] at h
  rcases h with (h | rfl) | rfl
  · have hlow : 48 ≤ c.toNat := (Char.isDigit_iff_toNat.mp h).1
    have hhigh : c.toNat ≤ 57 := (Char.isDigit_iff_toNat.mp h).2
    simp [isBlank]
    omega
  · decide
  · decide

theorem ne_quote {c : Char} (h : isSign c) : c ≠ '\'' := by
  rintro rfl
  exact absurd h (by decide)

theorem isSign_of_mem {digits : List Char} (h : Literal digits n) {c : Char} (hc : c ∈ digits) :
    isSign c := by
  simpa [isSign, or_assoc] using h.mem hc

theorem number?_eq_some_iff : number? x = some n ↔ Padded x n := by
  constructor
  · intro h
    obtain ⟨literal, inRange⟩ := int64?_eq_some_iff.mp h
    obtain ⟨before, after, hx, front, back⟩ := exists_strip isBlank x
    obtain ⟨opened, closed, hinner, opens, closes⟩ := exists_strip (· == '\'') (trim x)
    rw [hx, ← trim, hinner]
    exact .mk front (fun c hc => beq_iff_eq.mp (opens c hc)) literal inRange
      (fun c hc => beq_iff_eq.mp (closes c hc)) back
  · rintro @⟨before, opened, digits, closed, after, n, front, opens, literal, inRange, closes, back⟩
    have signs : ∀ c ∈ digits, isSign c := fun c => isSign_of_mem literal
    have sober : ∀ c ∈ opened ++ digits ++ closed, isBlank c = false := by
      intro c hc
      rcases List.mem_append.mp hc with hc | hc
      · rcases List.mem_append.mp hc with hc | hc
        · rw [opens c hc]; decide
        · exact isBlank_eq_false (signs c hc)
      · rw [closes c hc]; decide
    have outer : trim (before ++ (opened ++ digits ++ closed) ++ after) =
        opened ++ digits ++ closed :=
      strip_append front back (fun c hc => sober c (List.mem_of_head? hc))
        fun c hc => sober c (List.mem_of_getLast? hc)
    have inner : strip (· == '\'') (opened ++ digits ++ closed) = digits := by
      apply strip_append
      · exact fun c hc => beq_iff_eq.mpr (opens c hc)
      · exact fun c hc => beq_iff_eq.mpr (closes c hc)
      · exact fun c hc => beq_eq_false_iff_ne.mpr (ne_quote (signs c (List.mem_of_head? hc)))
      · exact fun c hc => beq_eq_false_iff_ne.mpr (ne_quote (signs c (List.mem_of_getLast? hc)))
    rw [number?, outer, inner]
    exact int64?_eq_some_iff.mpr ⟨literal, inRange⟩

theorem length_opening : opening.length = 6 := by decide

theorem length_middle : middle.length = 6 := by decide

structure Cut (s lead x y tail : List Char) : Prop where
  pieces : ∃ opened between, s = lead ++ opened ++ x ++ between ++ y ++ tail ∧
    asciiUppercase opened = opening ∧ asciiUppercase between = middle
  opens : FirstAt opening (asciiUppercase s) lead.length
  turns : FirstAt middle (asciiUppercase s) (lead.length + 6 + x.length)
  inside : ')' ∉ y
  closes : ∀ c ∈ tail.head?, c = ')'

theorem opening_before_middle {u : List Char} (ha : FirstAt opening u a) (hb : FirstAt middle u b)
    (h : a ≤ b) : a + 6 ≤ b := by
  by_contra hlt
  obtain ⟨i, rfl⟩ := Nat.exists_eq_add_of_le h
  have hi : i < 6 := by omega
  obtain ⟨r, hr⟩ := ha.here
  have hmiddle : middle <+: opening.drop i ++ r := by
    rw [← List.drop_append_of_le_length (by rw [length_opening]; omega), hr, List.drop_drop]
    exact hb.here
  have hparen : [')'] <+: opening.drop i := by
    refine (List.isPrefix_append_of_length ?_).mp (List.IsPrefix.trans (by decide) hmiddle)
    rw [List.length_drop, length_opening, List.length_singleton]
    omega
  exact absurd hparen ((by decide : ∀ i < 6, ¬[')'] <+: opening.drop i) i hi)

theorem exists_pieces {p : List Char} (hne : p ≠ []) (h : FirstAt p (asciiUppercase s) k) :
    ∃ l m r, s = l ++ m ++ r ∧ l.length = k ∧ asciiUppercase m = p := by
  obtain ⟨t, ht⟩ := h.here
  have hk := h.lt hne
  rw [asciiUppercase, List.length_map] at hk
  rw [asciiUppercase, ← List.map_drop] at ht
  obtain ⟨m, r, hdrop, hm, -⟩ := List.map_eq_append_iff.mp ht.symm
  refine ⟨s.take k, m, r, ?_, List.length_take_of_le hk.le, hm⟩
  rw [List.append_assoc, ← hdrop, List.take_append_drop]

theorem length_of_upper {m p : List Char} (h : asciiUppercase m = p) : m.length = p.length := by
  rw [← h, asciiUppercase, List.length_map]

theorem cut_of_firstAt (ha : FirstAt opening (asciiUppercase s) a)
    (hb : FirstAt middle (asciiUppercase s) b) (h : a ≤ b) :
    ∃ lead x y tail, Cut s lead x y tail := by
  obtain ⟨lead, opened, r, hs, hlead, hopened⟩ := exists_pieces (by decide) ha
  obtain ⟨front, between, rest, hs', hfront, hbetween⟩ := exists_pieces (by decide) hb
  have hlopened := (length_of_upper hopened).trans length_opening
  have hlt := opening_before_middle ha hb h
  obtain ⟨x, rfl⟩ : lead ++ opened <+: front := by
    refine List.prefix_of_prefix_length_le (hs ▸ List.prefix_append _ _)
      (hs'.trans (List.append_assoc ..) ▸ List.prefix_append _ _) ?_
    rw [List.length_append]
    omega
  have hx : a + 6 + x.length = b := by
    rw [← hfront, List.length_append, List.length_append]
    omega
  have hy := List.takeWhile_append_dropWhile (p := (· != ')')) (l := rest)
  refine ⟨lead, x, rest.takeWhile (· != ')'), rest.dropWhile (· != ')'),
    ⟨opened, between, ?_, hopened, hbetween⟩, ?_, ?_, ?_, ?_⟩
  · rw [List.append_assoc _ (rest.takeWhile _), hy, hs']
  · rwa [hlead]
  · rwa [hlead, hx]
  · intro hmem
    simpa using List.mem_takeWhile_imp hmem
  · intro c hc
    have hnot := List.head?_dropWhile_not (· != ')') rest
    rw [Option.mem_def.mp hc] at hnot
    simpa using hnot

theorem fields?_of_firstAt (ha : FirstAt opening (asciiUppercase s) a)
    (hb : FirstAt middle (asciiUppercase s) b) (h : a ≤ b) :
    fields? s = some ((s.take b).drop (a + 6), (s.drop (b + 6)).takeWhile (· != ')')) := by
  rw [fields?, (indexOf?_eq_some_iff (by decide)).mpr ha,
    (indexOf?_eq_some_iff (by decide)).mpr hb, length_opening, length_middle]
  simp [guard, h]

theorem firstAt_of_fields? {r : List Char × List Char} (h : fields? s = some r) :
    ∃ a b, FirstAt opening (asciiUppercase s) a ∧ FirstAt middle (asciiUppercase s) b ∧ a ≤ b := by
  obtain ⟨a, ha, h⟩ := Option.bind_eq_some_iff.mp h
  obtain ⟨b, hb, h⟩ := Option.bind_eq_some_iff.mp h
  obtain ⟨_, hguard, _⟩ := Option.bind_eq_some_iff.mp h
  have hle : a ≤ b := by simpa [guard] using hguard
  exact ⟨a, b, (indexOf?_eq_some_iff (by decide)).mp ha,
    (indexOf?_eq_some_iff (by decide)).mp hb, hle⟩

theorem Cut.fields (cut : Cut s lead x y tail) : fields? s = some (x, y) := by
  obtain ⟨⟨opened, between, hs, hopened, hbetween⟩, opens, turns, inside, closes⟩ := cut
  have hlopened := (length_of_upper hopened).trans length_opening
  have hlbetween := (length_of_upper hbetween).trans length_middle
  have hfront : (lead ++ opened ++ x).length = lead.length + 6 + x.length := by
    rw [List.length_append, List.length_append, hlopened]
  have htake : s.take (lead.length + 6 + x.length) = lead ++ opened ++ x := by
    rw [hs, List.append_assoc _ y, List.append_assoc _ between, List.take_left' hfront]
  have hdrop : s.drop (lead.length + 6 + x.length + 6) = y ++ tail := by
    rw [hs, List.append_assoc _ y, List.drop_left']
    rw [List.length_append, hfront, hlbetween]
  rw [fields?_of_firstAt opens turns (by omega), htake, hdrop, takeWhile_bne inside closes,
    List.drop_left']
  rw [List.length_append, hlopened]

theorem fields?_eq_some_iff : fields? s = some (x, y) ↔ ∃ lead tail, Cut s lead x y tail := by
  constructor
  · intro h
    obtain ⟨a, b, ha, hb, hle⟩ := firstAt_of_fields? h
    obtain ⟨lead, x', y', tail, cut⟩ := cut_of_firstAt ha hb hle
    have heq := h.symm.trans cut.fields
    rw [Option.some.injEq, Prod.mk.injEq] at heq
    rw [heq.1, heq.2]
    exact ⟨lead, tail, cut⟩
  · rintro ⟨lead, tail, cut⟩
    exact cut.fields

theorem range?_eq_some_iff : range? s = some (f, t) ↔
    f < t ∧ ∃ lead x y tail, Cut s lead x y tail ∧ Padded x f ∧ Padded y t := by
  constructor
  · intro h
    obtain ⟨⟨x, y⟩, hfields, h⟩ := Option.bind_eq_some_iff.mp h
    obtain ⟨lower, hlower, h⟩ := Option.bind_eq_some_iff.mp h
    obtain ⟨upper, hupper, h⟩ := Option.bind_eq_some_iff.mp h
    obtain ⟨_, hguard, heq⟩ := Option.bind_eq_some_iff.mp h
    have hlt : lower < upper := by simpa [guard] using hguard
    cases heq
    obtain ⟨lead, tail, cut⟩ := fields?_eq_some_iff.mp hfields
    exact ⟨hlt, lead, x, y, tail, cut, number?_eq_some_iff.mp hlower,
      number?_eq_some_iff.mp hupper⟩
  · rintro ⟨hlt, lead, x, y, tail, cut, hx, hy⟩
    rw [range?, cut.fields]
    simp [guard, number?_eq_some_iff.mpr hx, number?_eq_some_iff.mpr hy, hlt]

theorem parse_eq_ok_iff {text : String} : parse text = .ok (f, t) ↔
    f < t ∧ ∃ lead x y tail, Cut text.toList lead x y tail ∧ Padded x f ∧ Padded y t := by
  rw [← range?_eq_some_iff, parse]
  cases range? text.toList with
  | none => simp
  | some r => simp

theorem parse_eq_error {text : String} {e : PlanningError} (h : parse text = .error e) :
    e = .malformedBound text := by
  unfold parse at h
  split at h
  · cases h
  · cases h
    rfl

theorem ascii_opening : Ascii opening := ascii_of_all (by decide)

theorem ascii_middle : Ascii middle := ascii_of_all (by decide)

theorem length_utf8_take (s : List Char) (k : Nat) :
    (utf8 ((asciiUppercase s).take k)).length = (utf8 (s.take k)).length := by
  rw [asciiUppercase, ← List.map_take]
  exact length_utf8_asciiUppercase _

theorem offset_behind {p : List Char} (hne : p ≠ []) (h : FirstAt p (asciiUppercase s) k) :
    k + p.length ≤ s.length ∧
      (utf8 (s.take (k + p.length))).length = (utf8 (s.take k)).length + (utf8 p).length := by
  obtain ⟨l, m, r, rfl, rfl, hm⟩ := exists_pieces hne h
  have hlength : (l ++ m).length = l.length + p.length := by
    rw [List.length_append, length_of_upper hm]
  refine ⟨?_, ?_⟩
  · rw [← hlength]
    exact (List.prefix_append (l ++ m) r).length_le
  · rw [List.take_left' hlength, List.append_assoc, List.take_left' rfl, utf8_append,
      List.length_append, ← hm, length_utf8_asciiUppercase]

theorem slices_between_characters {i j : Nat}
    (hi : FirstAt (utf8 opening) (utf8 (asciiUppercase s)) i)
    (hj : FirstAt (utf8 middle) (utf8 (asciiUppercase s)) j) (h : i ≤ j) :
    ∃ x rest, slice? s (i + (utf8 opening).length) j = some x ∧
      slice? s (j + (utf8 middle).length) (utf8 s).length = some rest ∧
      fields? s = some (x, rest.takeWhile (· != ')')) := by
  obtain ⟨m, hm, hmi, ha⟩ := (firstAt_utf8_iff ascii_opening (by decide)).mp hi
  obtain ⟨n, hn, hnj, hb⟩ := (firstAt_utf8_iff ascii_middle (by decide)).mp hj
  have hle : m ≤ n := by
    by_contra hlt
    have := length_utf8_take_lt (Nat.not_le.mp hlt) hm
    omega
  rw [length_utf8_take] at hmi hnj
  obtain ⟨-, hopened⟩ := offset_behind (by decide) ha
  obtain ⟨hend, hturned⟩ := offset_behind (by decide) hb
  rw [length_opening] at hopened
  rw [length_middle] at hturned hend
  have hbetween := opening_before_middle ha hb hle
  rw [asciiUppercase, List.length_map] at hn
  refine ⟨(s.take n).drop (m + 6), s.drop (n + 6), ?_, ?_, fields?_of_firstAt ha hb hle⟩
  · rw [← hmi, ← hnj, ← hopened]
    exact slice?_take hbetween hn
  · have hrest := slice?_take hend (Nat.le_refl s.length)
    rwa [List.take_length, hturned, hnj] at hrest

theorem fields?_eq_none
    (h : ∀ i j, FirstAt (utf8 opening) (utf8 (asciiUppercase s)) i →
      FirstAt (utf8 middle) (utf8 (asciiUppercase s)) j → j < i) : fields? s = none := by
  rw [Option.eq_none_iff_forall_ne_some]
  rintro r hr
  obtain ⟨a, b, ha, hb, hle⟩ := firstAt_of_fields? hr
  have hbound := (hb.lt (by decide)).le
  have hlt := h _ _
    ((firstAt_utf8_iff ascii_opening (by decide)).mpr ⟨a, hle.trans hbound, rfl, ha⟩)
    ((firstAt_utf8_iff ascii_middle (by decide)).mpr ⟨b, hbound, rfl, hb⟩)
  exact absurd hlt (Nat.not_lt.mpr (length_utf8_take_le hle hbound))

def squeeze (s : List Char) : List Char := (asciiUppercase s).filter (!isBlank ·)

inductive Spelled : List Char → Int → Prop
  | bare {digits n} (literal : Literal digits n) : Spelled digits n
  | quoted {digits n} (literal : Literal digits n) : Spelled ('\'' :: digits ++ ['\'']) n

def Ranged (s : List Char) (f t : Int) : Prop :=
  ∃ lower upper, Spelled lower f ∧ Spelled upper t ∧
    squeeze s = "FORVALUESFROM".toList ++ '(' :: (lower ++ ')' ::
      ("TO".toList ++ '(' :: (upper ++ [')'])))

theorem Padded.mem (h : Padded x n) {c : Char} (hc : c ∈ x) : isBlank c ∨ c = '\'' ∨ isSign c := by
  obtain ⟨front, opens, literal, -, closes, back⟩ := h
  simp only [List.mem_append] at hc
  rcases hc with (hc | (hc | hc) | hc) | hc
  · exact .inl (front c hc)
  · exact .inr (.inl (opens c hc))
  · exact .inr (.inr (isSign_of_mem literal hc))
  · exact .inr (.inl (closes c hc))
  · exact .inl (back c hc)

theorem Spelled.mem (h : Spelled s n) {c : Char} (hc : c ∈ s) : c = '\'' ∨ isSign c := by
  cases h with
  | bare literal => exact .inr (isSign_of_mem literal hc)
  | quoted literal =>
    simp only [List.cons_append, List.mem_cons, List.mem_append, List.not_mem_nil, or_false] at hc
    rcases hc with hc | hc | hc
    · exact .inl hc
    · exact .inr (isSign_of_mem literal hc)
    · exact .inl hc

theorem Padded.no_parens (h : Padded x n) : '(' ∉ x ∧ ')' ∉ x :=
  ⟨fun hc => absurd (h.mem hc) (by decide), fun hc => absurd (h.mem hc) (by decide)⟩

theorem Spelled.no_parens (h : Spelled s n) : '(' ∉ s ∧ ')' ∉ s :=
  ⟨fun hc => absurd (h.mem hc) (by decide), fun hc => absurd (h.mem hc) (by decide)⟩

theorem squeeze_append (s t : List Char) : squeeze (s ++ t) = squeeze s ++ squeeze t := by
  rw [squeeze, asciiUppercase, List.map_append, List.filter_append]
  rfl

theorem notMem_squeeze {c : Char} (hc : c.isUpper = false) (h : c ∉ s) : c ∉ squeeze s :=
  fun hmem => h (mem_asciiUppercase hc (List.mem_of_mem_filter hmem))

theorem Cut.squeeze_eq (cut : Cut s lead x y tail) :
    squeeze s = squeeze lead ++ ("FROM".toList ++ '(' :: (squeeze x ++ ')' ::
      ("TO".toList ++ '(' :: (squeeze y ++ squeeze tail)))) := by
  obtain ⟨opened, between, hs, hopened, hbetween⟩ := cut.pieces
  have hopen : squeeze opened = "FROM".toList ++ ['('] := by
    rw [squeeze, hopened]
    decide
  have hturn : squeeze between = ')' :: ("TO".toList ++ ['(']) := by
    rw [squeeze, hbetween]
    decide
  rw [hs]
  simp only [squeeze_append, hopen, hturn, List.append_assoc, List.cons_append, List.nil_append]

theorem Cut.squeeze_tail (cut : Cut s lead x y tail) :
    squeeze tail = [] ∨ ∃ r, squeeze tail = ')' :: r := by
  cases tail with
  | nil => exact .inl rfl
  | cons c r =>
    obtain rfl := cut.closes c rfl
    exact .inr ⟨squeeze r, List.filter_cons_of_pos (by decide)⟩

theorem opening_notMem {lower upper : List Char} (hx : '(' ∉ x) (hy : '(' ∉ y)
    (hlower : '(' ∉ lower) (hupper : '(' ∉ upper)
    (h : lead ++ ("FROM".toList ++ '(' :: (x ++ ')' :: ("TO".toList ++ '(' :: (y ++ tail)))) =
      "FORVALUESFROM".toList ++ '(' :: (lower ++ ')' ::
        ("TO".toList ++ '(' :: (upper ++ [')'])))) : '(' ∉ lead := by
  have hcount : List.count '(' lead + (List.count '(' tail + 1 + 1) = 2 := by
    simpa [List.count_eq_zero.mpr hx, List.count_eq_zero.mpr hy, List.count_eq_zero.mpr hlower,
      List.count_eq_zero.mpr hupper] using congrArg (List.count '(') h
  rw [← List.count_eq_zero]
  omega

theorem Cut.ranged_iff (cut : Cut s lead x y tail) (hx : Padded x f) (hy : Padded y t) :
    Ranged s f t ↔ squeeze lead = "FORVALUES".toList ∧ Spelled (squeeze x) f ∧
      Spelled (squeeze y) t ∧ squeeze tail = [')'] := by
  have xopen := notMem_squeeze (by decide) hx.no_parens.1
  have xclose := notMem_squeeze (by decide) hx.no_parens.2
  have yopen := notMem_squeeze (by decide) hy.no_parens.1
  have yclose := notMem_squeeze (by decide) hy.no_parens.2
  constructor
  · rintro ⟨lower, upper, hlower, hupper, hs⟩
    rw [cut.squeeze_eq] at hs
    obtain ⟨lopen, lclose⟩ := hlower.no_parens
    obtain ⟨uopen, uclose⟩ := hupper.no_parens
    have frontopen : '(' ∉ squeeze lead ++ "FROM".toList := by
      rw [List.mem_append, not_or]
      exact ⟨opening_notMem xopen yopen lopen uopen hs, by decide⟩
    rw [← List.append_assoc] at hs
    obtain ⟨hfront, hfields⟩ := split_unique frontopen (by decide) hs
    obtain ⟨hfirst, hrest⟩ := split_unique xclose lclose hfields
    have hlast := (List.cons.inj (List.append_cancel_left hrest)).2
    have hlead : squeeze lead = "FORVALUES".toList := by
      have hword : "FORVALUESFROM".toList = "FORVALUES".toList ++ "FROM".toList := by decide
      exact List.append_cancel_right (hfront.trans hword)
    rcases cut.squeeze_tail with htail | ⟨r, htail⟩
    · rw [htail, List.append_nil] at hlast
      rw [hlast] at yclose
      exact absurd (List.mem_append_right _ (List.mem_singleton_self _)) yclose
    · rw [htail] at hlast ⊢
      obtain ⟨hsecond, hnil⟩ := split_unique yclose uclose hlast
      rw [hfirst, hsecond, hnil]
      exact ⟨hlead, hlower, hupper, rfl⟩
  · rintro ⟨hlead, hlower, hupper, htail⟩
    refine ⟨squeeze x, squeeze y, hlower, hupper, ?_⟩
    rw [cut.squeeze_eq, hlead, htail, ← List.append_assoc]
    rfl

theorem accepts_iff_cut (text : String) :
    (∀ f t, parse text = .ok (f, t) ↔
      f < t ∧ ∃ lead x y tail, Cut text.toList lead x y tail ∧ Padded x f ∧ Padded y t) ∧
    (∀ e, parse text = .error e → e = .malformedBound text) ∧
    (∀ lead x y tail f t, Cut text.toList lead x y tail → Padded x f → Padded y t →
      (Ranged text.toList f t ↔ squeeze lead = "FORVALUES".toList ∧ Spelled (squeeze x) f ∧
        Spelled (squeeze y) t ∧ squeeze tail = [')'])) ∧
    (∀ i j, FirstAt (utf8 opening) (utf8 (asciiUppercase text.toList)) i →
      FirstAt (utf8 middle) (utf8 (asciiUppercase text.toList)) j → i ≤ j →
      ∃ x rest, slice? text.toList (i + (utf8 opening).length) j = some x ∧
        slice? text.toList (j + (utf8 middle).length) (utf8 text.toList).length = some rest ∧
        fields? text.toList = some (x, rest.takeWhile (· != ')'))) ∧
    ((∀ i j, FirstAt (utf8 opening) (utf8 (asciiUppercase text.toList)) i →
      FirstAt (utf8 middle) (utf8 (asciiUppercase text.toList)) j → j < i) →
      fields? text.toList = none) :=
  ⟨fun _ _ => parse_eq_ok_iff, fun _ => parse_eq_error, fun _ _ _ _ _ _ => Cut.ranged_iff,
    fun _ _ => slices_between_characters, fields?_eq_none⟩

theorem accepts_iff_cut_beyond_ascii :
    (Cut "für from ('-7 ) to (+9'')…".toList "für ".toList "'-7 ".toList "+9''".toList ")…".toList ∧
      Padded "'-7 ".toList (-7) ∧ Padded "+9''".toList 9 ∧
      parse "für from ('-7 ) to (+9'')…" = .ok (-7, 9)) ∧
    (FirstAt (utf8 opening) (utf8 (asciiUppercase "für from ('-7 ) to (+9'')…".toList)) 5 ∧
      FirstAt (utf8 middle) (utf8 (asciiUppercase "für from ('-7 ) to (+9'')…".toList)) 15 ∧
      ∃ x rest, slice? "für from ('-7 ) to (+9'')…".toList 11 15 = some x ∧
        slice? "für from ('-7 ) to (+9'')…".toList 21 29 = some rest ∧
        fields? "für from ('-7 ) to (+9'')…".toList = some (x, rest.takeWhile (· != ')'))) ∧
    ¬Ranged "für from ('-7 ) to (+9'')…".toList (-7) 9 ∧
    FirstAt (utf8 opening) (utf8 (asciiUppercase ") to (from (".toList)) 6 ∧
      FirstAt (utf8 middle) (utf8 (asciiUppercase ") to (from (".toList)) 0 ∧
      fields? ") to (from (".toList = none := by
  have cut : Cut "für from ('-7 ) to (+9'')…".toList "für ".toList "'-7 ".toList "+9''".toList
      ")…".toList :=
    ⟨⟨"from (".toList, ") to (".toList, by decide, by decide, by decide⟩,
      ⟨by decide +kernel, by decide +kernel⟩, ⟨by decide +kernel, by decide +kernel⟩,
      by decide, fun _ hc => (Option.some.inj hc).symm⟩
  have hx : Padded "'-7 ".toList (-7) := number?_eq_some_iff.mp (by decide +kernel)
  have hy : Padded "+9''".toList 9 := number?_eq_some_iff.mp (by decide +kernel)
  have hi : FirstAt (utf8 opening) (utf8 (asciiUppercase "für from ('-7 ) to (+9'')…".toList)) 5 :=
    ⟨by decide +kernel, by decide +kernel⟩
  have hj : FirstAt (utf8 middle) (utf8 (asciiUppercase "für from ('-7 ) to (+9'')…".toList)) 15 :=
    ⟨by decide +kernel, by decide +kernel⟩
  have hlate : FirstAt (utf8 opening) (utf8 (asciiUppercase ") to (from (".toList)) 6 :=
    ⟨by decide +kernel, by decide +kernel⟩
  have hearly : FirstAt (utf8 middle) (utf8 (asciiUppercase ") to (from (".toList)) 0 :=
    ⟨by decide +kernel, by decide +kernel⟩
  obtain ⟨accepted, -, ranged, sliced, -⟩ := accepts_iff_cut "für from ('-7 ) to (+9'')…"
  obtain ⟨-, -, -, -, unsliced⟩ := accepts_iff_cut ") to (from ("
  refine ⟨⟨cut, hx, hy, (accepted _ _).mpr ⟨by decide, _, _, _, _, cut, hx, hy⟩⟩,
    ⟨hi, hj, sliced _ _ hi hj (by decide)⟩, ?_, hlate, hearly, unsliced fun i j hi hj => ?_⟩
  · rw [ranged _ _ _ _ _ _ cut hx hy]
    exact fun h => absurd h.1 (by decide +kernel)
  · rw [hi.unique hlate, hj.unique hearly]
    decide

theorem list_bound_accepted :
    ¬∀ (text : String) (f t : Int), parse text = .ok (f, t) → Ranged text.toList f t := by
  intro h
  obtain ⟨lower, upper, -, -, heq⟩ := h "FOR VALUES IN ('FROM (1) TO (2)')" 1 2 (by decide +kernel)
  have hstart := congrArg (List.take 10) heq
  rw [List.take_append_of_le_length (by decide)] at hstart
  exact absurd hstart (by decide +kernel)

end ChainIndexer.Partition.Bound
