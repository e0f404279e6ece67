import ChainIndexer.Proofs.Identifier

namespace ChainIndexer.Identifier

variable {s rest : List Char}

def spaces : List Char := [' ', '\t', '\n', '\x0b', '\x0c', '\r']

def isSpace (c : Char) : Bool := spaces.contains c

/-- All characters beyond ASCII count as letters. -/
def isLetter (c : Char) : Bool := c.isAlpha || c == '_' || 128 ≤ c.toNat

def isWordChar (c : Char) : Bool := isLetter c || c.isDigit || c == '$'

theorem isSpace_eq_false {p : Char → Bool} {c : Char} (apart : spaces.all (!p ·)) (h : p c) :
    isSpace c = false := by
  rw [Bool.eq_false_iff]
  intro hs
  have hc := List.all_eq_true.mp apart c (List.contains_iff_mem.mp hs)
  rw [h] at hc
  cases hc

theorem isLetter_eq_false_of_isDigit {c : Char} (h : c.isDigit) : isLetter c = false := by
  have hle : c.val.toNat ≤ 57 := (Char.isDigit_iff_toNat.mp h).2
  have hupper : c.isUpper = false :=
    Bool.eq_false_iff.mpr fun hc => by have := (Text.isUpper_iff_toNat.mp hc).1; omega
  have hlower : c.isLower = false :=
    Bool.eq_false_iff.mpr fun hc => by have := (Text.isLower_iff_toNat.mp hc).1; omega
  have halpha : c.isAlpha = false := Bool.or_eq_false_iff.mpr ⟨hupper, hlower⟩
  have hunder : c ≠ '_' := by rintro rfl; exact absurd h (by decide)
  have hlow : ¬128 ≤ c.toNat := by
    change ¬128 ≤ c.val.toNat
    omega
  simp [isLetter, halpha, hunder, hlow]

def Plain (s : List Char) : Prop := ∃ c r, s = c :: r ∧ isLetter c ∧ ∀ d ∈ r, isWordChar d

theorem Plain.dot_notMem (h : Plain s) : '.' ∉ s := by
  obtain ⟨c, r, rfl, hc, hr⟩ := h
  rw [List.mem_cons, not_or]
  refine ⟨?_, fun hdot => ?_⟩
  · rintro rfl
    exact absurd hc (by decide)
  · exact absurd (hr _ hdot) (by decide)

inductive NamePart where
  | plain (text : List Char)
  | quoted (text : List Char)
  deriving DecidableEq, Repr

namespace NamePart

def text : NamePart → List Char
  | plain s => s
  | quoted s => s

def spelled : NamePart → List Char
  | plain s => s
  | quoted s => quoteChars s

end NamePart

def NamePart.Sound : NamePart → Prop
  | plain s => Plain s
  | quoted _ => True

def readPart? : List Char → Option (NamePart × List Char)
  | [] => none
  | c :: r =>
    if c = '"' then (delimited? r).map fun (name, rest) => (.quoted name, rest)
    else if isLetter c then some (.plain (c :: r.takeWhile isWordChar), r.dropWhile isWordChar)
    else none

def NamePart.Bare (p : NamePart) : Prop := Plain p.text ∧ p = .plain p.text

theorem length_of_readPart? {p : NamePart} (h : readPart? s = some (p, rest)) :
    p.text.length + rest.length ≤ s.length ∧
      (s.length ≤ p.text.length + rest.length → s = p.text ++ rest ∧ p.Bare) := by
  cases s with
  | nil => cases h
  | cons c r =>
    rw [readPart?] at h
    split at h
    · obtain ⟨⟨name, left⟩, hr, heq⟩ := Option.map_eq_some_iff.mp h
      cases heq
      have := length_of_delimited? hr
      simp only [NamePart.text, List.length_cons]
      exact ⟨by omega, fun _ => by omega⟩
    · split at h
      next hc =>
        cases h
        have hword : c :: r = (c :: r.takeWhile isWordChar) ++ r.dropWhile isWordChar := by
          rw [List.cons_append, List.takeWhile_append_dropWhile]
        have hplain : Plain (c :: r.takeWhile isWordChar) :=
          ⟨c, _, rfl, hc, fun d hd => List.mem_takeWhile_imp hd⟩
        exact ⟨Nat.le_of_eq (by rw [hword, List.length_append]; rfl), fun _ => ⟨hword, hplain, rfl⟩⟩
      · cases h

def dotted : Option (List Char) → List Char
  | none => []
  | some more => '.' :: more

def readItem? (s : List Char) : Option (NamePart × Option (List Char)) := do
  let (p, rest) ← readPart? (s.dropWhile isSpace)
  match rest.dropWhile isSpace with
  | [] => some (p, none)
  | c :: more => if c = '.' then some (p, some more) else none

theorem readItem?_cases {p : NamePart} {after : Option (List Char)}
    (h : readItem? s = some (p, after)) :
    ∃ rest, readPart? (s.dropWhile isSpace) = some (p, rest) ∧
      rest.dropWhile isSpace = dotted after := by
  obtain ⟨⟨q, rest⟩, hq, hrest⟩ := Option.bind_eq_some_iff.mp h
  dsimp only at hrest
  split at hrest
  next hnil =>
    cases hrest
    exact ⟨rest, hq, hnil⟩
  next c more hcons =>
    split at hrest
    next hc =>
      cases hrest
      exact ⟨rest, hq, hcons.trans (congrArg (· :: more) hc)⟩
    next => cases hrest

theorem length_of_readItem? {p : NamePart} {more : List Char}
    (h : readItem? s = some (p, some more)) : more.length < s.length := by
  obtain ⟨rest, hp, hdot⟩ := readItem?_cases h
  have hs := (s.dropWhile_suffix isSpace).length_le
  have hrest := (rest.dropWhile_suffix isSpace).length_le
  have hpart := (length_of_readPart? hp).1
  rw [hdot, dotted, List.length_cons] at hrest
  omega

def readName? (s : List Char) : Option (List NamePart) :=
  match _h : readItem? s with
  | none => none
  | some (p, none) => some [p]
  | some (p, some more) => (readName? more).map (p :: ·)
termination_by s.length
decreasing_by exact length_of_readItem? _h

theorem readName?_eq (s : List Char) :
    readName? s = match readItem? s with
      | none => none
      | some (p, none) => some [p]
      | some (p, some more) => (readName? more).map (p :: ·) := by
  rw [readName?]
  split <;> rename_i h <;> rw [h]

theorem readPart?_spelled {p : NamePart} (hp : p.Sound) (hrest : ∀ c ∈ rest.head?, c = '.') :
    readPart? (p.spelled ++ rest) = some (p, rest) := by
  have hdot : ∀ c ∈ rest.head?, isWordChar c = false := fun c hc => by rw [hrest c hc]; rfl
  cases p with
  | quoted s =>
    have hquote : rest.head? ≠ some '"' := fun h => absurd (hrest _ h) (by decide)
    rw [NamePart.spelled, quoteChars, List.append_assoc, List.cons_append, readPart?, if_pos rfl,
      List.singleton_append, delimited?_doubleQuotes s hquote]
    rfl
  | plain s =>
    obtain ⟨c, r, rfl, hc, hr⟩ := hp
    have hquote : c ≠ '"' := by rintro rfl; exact absurd hc (by decide)
    rw [NamePart.spelled, List.cons_append, readPart?, if_neg hquote, if_pos hc,
      List.takeWhile_append_of_pos hr, List.dropWhile_append_of_pos hr,
      Text.dropWhile_of_head? hdot, Text.takeWhile_of_head? hdot, List.append_nil]

theorem readItem?_spelled {p : NamePart} (hp : p.Sound) (after : Option (List Char)) :
    readItem? (p.spelled ++ dotted after) = some (p, after) := by
  have hrest : ∀ c ∈ (dotted after).head?, c = '.' := by
    cases after with
    | none => simp [dotted]
    | some more => simp [dotted, eq_comm]
  have hfirst : ∀ c ∈ (p.spelled ++ dotted after).head?, isSpace c = false := by
    cases p with
    | quoted s => simp [NamePart.spelled, quoteChars]; decide
    | plain s =>
      obtain ⟨c, r, rfl, hc, -⟩ := hp
      simp only [NamePart.spelled, List.cons_append, List.head?_cons, Option.mem_def,
        Option.some.injEq, forall_eq']
      exact isSpace_eq_false (by decide) hc
  rw [readItem?, Text.dropWhile_of_head? hfirst, readPart?_spelled hp hrest]
  cases after with
  | none => rfl
  | some more => rfl

theorem readName?_joinWith {ps : List NamePart} (hne : ps ≠ []) (hps : ∀ p ∈ ps, p.Sound) :
    readName? (joinWith ['.'] (ps.map NamePart.spelled)) = some ps := by
  induction ps with
  | nil => exact absurd rfl hne
  | cons p rest ih =>
    have item := readItem?_spelled (hps p (List.mem_cons_self ..))
    cases rest with
    | nil =>
      have last := item none
      rw [dotted, List.append_nil] at last
      rw [List.map_cons, List.map_nil, joinWith, readName?_eq, last]
    | cons q qs =>
      have first := item (some (joinWith ['.'] ((q :: qs).map NamePart.spelled)))
      rw [dotted] at first
      rw [List.map_cons, List.map_cons, joinWith, ← List.map_cons, List.append_assoc,
        List.singleton_append, readName?_eq, first]
      exact congrArg (Option.map (p :: ·))
        (ih (List.cons_ne_nil q qs) fun r hr => hps r (List.mem_cons_of_mem _ hr))

theorem length_eq_of_readItem? {p : NamePart} {after : Option (List Char)}
    (h : readItem? s = some (p, after)) :
    p.text.length + (dotted after).length ≤ s.length ∧
      (s.length ≤ p.text.length + (dotted after).length → s = p.text ++ dotted after ∧ p.Bare) := by
  obtain ⟨rest, hp, hafter⟩ := readItem?_cases h
  have hs := s.dropWhile_suffix isSpace
  have hrest := rest.dropWhile_suffix isSpace
  rw [hafter] at hrest
  obtain ⟨hle, hbare⟩ := length_of_readPart? hp
  have hsl := hs.length_le
  have hrl := hrest.length_le
  refine ⟨by omega, fun hge => ?_⟩
  rw [hs.eq_of_length (by omega)] at hbare
  rw [hrest.eq_of_length (by omega)]
  exact hbare (by omega)

theorem length_of_readName? {ps : List NamePart} (h : readName? s = some ps) :
    ps ≠ [] ∧ (ps.flatMap NamePart.text).length + ps.length ≤ s.length + 1 ∧
      (s.length < (ps.flatMap NamePart.text).length + ps.length →
        s = joinWith ['.'] (ps.map NamePart.text) ∧ ∀ p ∈ ps, p.Bare) := by
  fun_induction readName? s generalizing ps with
  | case1 => cases h
  | case2 s p hitem =>
    cases h
    obtain ⟨hle, hbare⟩ := length_eq_of_readItem? hitem
    simp only [dotted, List.length_nil, List.append_nil, Nat.add_zero] at hle hbare
    simp only [List.flatMap_cons, List.flatMap_nil, List.append_nil, List.map_cons, List.map_nil,
      List.length_cons, List.length_nil, List.forall_mem_singleton, joinWith]
    exact ⟨List.cons_ne_nil _ _, by omega, fun hlt => hbare (by omega)⟩
  | case3 s p more hitem ih =>
    obtain ⟨qs, hqs, rfl⟩ := Option.map_eq_some_iff.mp h
    obtain ⟨hle, hbare⟩ := length_eq_of_readItem? hitem
    obtain ⟨hne, hmore, hrest⟩ := ih hqs
    simp only [dotted, List.length_cons] at hle hbare
    simp only [List.flatMap_cons, List.length_append, List.map_cons, List.length_cons]
    refine ⟨List.cons_ne_nil _ _, by omega, fun hlt => ?_⟩
    obtain ⟨hs, hp⟩ := hbare (by omega)
    obtain ⟨hmore, hqs⟩ := hrest (by omega)
    obtain ⟨q, rest, rfl⟩ := List.exists_cons_of_ne_nil hne
    refine ⟨?_, List.forall_mem_cons.mpr ⟨hp, hqs⟩⟩
    rw [hs, hmore, List.map_cons, joinWith, List.append_assoc, List.singleton_append]

theorem spelled_quoted (name : List Char) :
    quoteQualifiedChars name =
      joinWith ['.'] (((parts name).map NamePart.quoted).map NamePart.spelled) := by
  rw [List.map_map]
  rfl

theorem readName?_quoteQualified (name : List Char) :
    readName? (quoteQualifiedChars name) = some ((parts name).map .quoted) := by
  rw [spelled_quoted]
  exact readName?_joinWith (by simpa using parts_ne_nil name) (by simp [NamePart.Sound])

def folded (s : List Char) : List Char := s.map Char.toLower

/-- The whole characters within so many bytes. -/
def clip : Nat → List Char → List Char
  | _, [] => []
  | n, c :: r => if c.utf8Size ≤ n then c :: clip (n - c.utf8Size) r else []

def NamePart.identifier : NamePart → List Char
  | plain s => clip maxBytes (folded s)
  | quoted s => clip maxBytes s

def denotes? (s : List Char) : Option (List (List Char)) :=
  (readName? s).bind fun ps =>
    if ps.all (!·.text.isEmpty) then some (ps.map NamePart.identifier) else none

theorem clip_initial (n : Nat) (s : List Char) : clip n s <+: s := by
  induction s generalizing n with
  | nil => exact List.prefix_rfl
  | cons c r ih =>
    rw [clip]
    split
    · exact List.cons_prefix_cons.mpr ⟨rfl, ih _⟩
    · exact List.nil_prefix

theorem clip_eq_self {n : Nat} (h : byteCount s ≤ n) : clip n s = s := by
  induction s generalizing n with
  | nil => rfl
  | cons c r ih =>
    have hcount : byteCount (c :: r) = c.utf8Size + byteCount r := rfl
    rw [clip, if_pos (by omega), ih (by omega)]

theorem NamePart.length_identifier_le (p : NamePart) : p.identifier.length ≤ p.text.length := by
  cases p with
  | plain s => exact (clip_initial _ _).length_le.trans (Nat.le_of_eq (List.length_map _))
  | quoted s => exact (clip_initial _ _).length_le

theorem NamePart.length_identifiers_le (ps : List NamePart) :
    (ps.flatMap identifier).length ≤ (ps.flatMap text).length := by
  induction ps with
  | nil => exact Nat.le_refl _
  | cons p rest ih =>
    rw [List.flatMap_cons, List.flatMap_cons, List.length_append, List.length_append]
    exact Nat.add_le_add p.length_identifier_le ih

def LowerPlain (s : List Char) : Prop := Plain s ∧ ∀ c ∈ s, c.isUpper = false

theorem toLower_eq_self_iff (c : Char) : c.toLower = c ↔ c.isUpper = false := by
  delta Char.toLower Char.isUpper
  rw [decide_eq_false_iff_not]
  split
  next h =>
    refine iff_of_false (fun heq => ?_) (not_not_intro h)
    have hval := congrArg Char.val heq
    rw [UInt32.add_eq_left] at hval
    exact absurd hval (by decide)
  next h => exact iff_of_true rfl h

theorem folded_eq_self_iff : folded s = s ↔ ∀ c ∈ s, c.isUpper = false := by
  calc folded s = s
    _ ↔ s.map Char.toLower = s.map id := by rw [List.map_id, folded]
    _ ↔ ∀ c ∈ s, c.isUpper = false := by simp only [List.map_inj_left, id, toLower_eq_self_iff]

theorem denotes?_eq_some_iff {ids : List (List Char)} :
    denotes? s = some ids ↔
      ∃ ps, readName? s = some ps ∧ (∀ p ∈ ps, p.text ≠ []) ∧ ps.map NamePart.identifier = ids := by
  simp [denotes?, Option.bind_eq_some_iff]

theorem partUsable_iff : partUsable s ↔ s ≠ [] ∧ byteCount s ≤ maxBytes ∧ '\x00' ∉ s := by
  simp [partUsable, and_assoc]

theorem denotes?_joinWith {ps : List NamePart} (hne : ps ≠ []) (sound : ∀ p ∈ ps, p.Sound)
    (kept : ∀ p ∈ ps, p.text ≠ [] ∧ p.identifier = p.text) :
    denotes? (joinWith ['.'] (ps.map NamePart.spelled)) = some (ps.map NamePart.text) :=
  denotes?_eq_some_iff.mpr ⟨ps, readName?_joinWith hne sound, fun p hp => (kept p hp).1,
    List.map_congr_left fun p hp => (kept p hp).2⟩

variable {name : List Char} (usable : ∀ part ∈ parts name, partUsable part)

include usable

theorem denotes?_quoteQualified : denotes? (quoteQualifiedChars name) = some (parts name) := by
  have hne : (parts name).map NamePart.quoted ≠ [] := by simpa using parts_ne_nil name
  have h := denotes?_joinWith hne (by simp [NamePart.Sound]) (by
    simp only [List.forall_mem_map, NamePart.text, NamePart.identifier]
    intro part hpart
    obtain ⟨hne, hbytes, -⟩ := partUsable_iff.mp (usable part hpart)
    exact ⟨hne, clip_eq_self hbytes⟩)
  rw [← spelled_quoted, List.map_map] at h
  exact h.trans (congrArg some (List.map_id _))

theorem denotes?_eq_parts_iff :
    denotes? name = some (parts name) ↔ ∀ part ∈ parts name, LowerPlain part := by
  constructor
  · intro h
    obtain ⟨ps, hread, -, hids⟩ := denotes?_eq_some_iff.mp h
    obtain ⟨hne, -, hbare⟩ := length_of_readName? hread
    -- the parts of the name are as long as the name, so nothing of it can be lost in reading
    have hlength := NamePart.length_identifiers_le ps
    have hname := length_joinWith (parts_ne_nil name)
    rw [joinWith_parts, ← hids, ← List.flatMap_def, List.length_map] at hname
    obtain ⟨hs, hps⟩ := hbare (by omega)
    have hparts : parts name = ps.map NamePart.text := by
      rw [hs, parts_joinWith _ (by simpa using hne)]
      simp only [List.forall_mem_map]
      exact fun p hp => (hps p hp).1.dot_notMem
    rw [hparts] at hids ⊢
    rw [List.forall_mem_map]
    intro p hp
    obtain ⟨hplain, heq⟩ := hps p hp
    have hself : p.identifier = p.text := List.map_inj_left.mp hids p hp
    refine ⟨hplain, folded_eq_self_iff.mp ?_⟩
    rw [heq] at hself
    have hclip := clip_initial maxBytes (folded p.text)
    have := hclip.eq_of_length (by rw [folded, List.length_map]; exact congrArg _ hself)
    exact this.symm.trans hself
  · intro h
    have hne : (parts name).map NamePart.plain ≠ [] := by simpa using parts_ne_nil name
    have sound : ∀ p ∈ (parts name).map NamePart.plain, p.Sound := by
      simpa [NamePart.Sound] using fun part hpart => (h part hpart).1
    have hread := denotes?_joinWith hne sound (by
      simp only [List.forall_mem_map, NamePart.text, NamePart.identifier]
      intro part hpart
      obtain ⟨hne, hbytes, -⟩ := partUsable_iff.mp (usable part hpart)
      rw [folded_eq_self_iff.mpr (h part hpart).2]
      exact ⟨hne, clip_eq_self hbytes⟩)
    rw [List.map_map, List.map_map] at hread
    calc denotes? name
      _ = denotes? (joinWith ['.'] ((parts name).map id)) := by rw [List.map_id, joinWith_parts]
      _ = some ((parts name).map id) := hread
      _ = some (parts name) := by rw [List.map_id]

end ChainIndexer.Identifier
