import ReactiveView.Proofs.Text.Runs
import ReactiveView.Template.Interpolation

/-! The segments of a text: two opening braces, a path with blanks around it, two closing braces.
Segments never overlap, so a scan from the left meets all of them and nothing else, and what it
takes for literal text holds none. Rendering looks the paths up in this order and puts what it finds
between the literal texts. -/
namespace ReactiveView.Template

section Segments

/-- What a segment is about: a text without braces that neither begins nor ends with a blank. -/
structure IsPath (path : List Char) : Prop where
  filled : path ≠ []
  bare : ∀ c ∈ path, isBrace c = false
  begins : ∀ c ∈ path.head?, Text.isBlank c = false
  ends : ∀ c ∈ path.getLast?, Text.isBlank c = false

def IsSegment (path segment : List Char) : Prop :=
  IsPath path ∧ ∃ before behind, (∀ c ∈ before, Text.isBlank c = true) ∧
    (∀ c ∈ behind, Text.isBlank c = true) ∧
    segment = ['\x7b', '\x7b'] ++ (before ++ path ++ behind) ++ ['\x7d', '\x7d']

/-- No segment begins where the text begins. -/
def Plain (s : List Char) : Prop :=
  ∀ path segment rest, s = segment ++ rest → ¬ IsSegment path segment

/-- No segment occurs in the text. -/
def Free (s : List Char) : Prop :=
  ∀ before path segment behind, s = before ++ segment ++ behind → ¬ IsSegment path segment

variable {path path' segment segment' s t rest rest' before behind : List Char} {c : Char}

theorem not_isBrace_of_isBlank (blank : Text.isBlank c = true) : isBrace c = false := by
  have opening : c ≠ '\x7b' := by
    rintro rfl
    exact absurd blank (by decide)
  have closing : c ≠ '\x7d' := by
    rintro rfl
    exact absurd blank (by decide)
  simp [isBrace, opening, closing]

theorem isPath_trim (filled : Text.trim s ≠ []) (bare : ∀ c ∈ s, isBrace c = false) :
    IsPath (Text.trim s) where
  filled := filled
  bare c member := by
    obtain ⟨before, behind, -, -, same⟩ := Text.trim_split s
    exact bare c (by rw [same]; simp [member])
  begins := Text.head?_trim filled
  ends := Text.getLast?_trimEnd _

theorem IsPath.trim_append (formed : IsPath path) (blank : ∀ c ∈ before, Text.isBlank c = true)
    (blank' : ∀ c ∈ behind, Text.isBlank c = true) :
    Text.trim (before ++ path ++ behind) = path :=
  Text.trim_append formed.filled formed.begins formed.ends blank blank'

/-- A segment as the reader of slots sees it: a text without braces, closed by two of them. -/
theorem IsSegment.inner (formed : IsSegment path segment) :
    ∃ inner, inner ≠ [] ∧ (∀ c ∈ inner, isBrace c = false) ∧ Text.trim inner = path ∧
      segment = '\x7b' :: '\x7b' :: (inner ++ ['\x7d', '\x7d']) := by
  obtain ⟨isPath, before, behind, blank, blank', rfl⟩ := formed
  refine ⟨before ++ path ++ behind, by simp [isPath.filled], ?_,
    isPath.trim_append blank blank', rfl⟩
  intro c member
  simp only [List.mem_append] at member
  rcases member with (member | member) | member
  · exact not_isBrace_of_isBlank (blank c member)
  · exact isPath.bare c member
  · exact not_isBrace_of_isBlank (blank' c member)

theorem IsSegment.ne_nil (formed : IsSegment path segment) : segment ≠ [] := by
  obtain ⟨inner, -, -, -, rfl⟩ := formed.inner
  simp

theorem slot?_of_bare (bare : ∀ c ∈ s, isBrace c = false) (filled : Text.trim s ≠ []) :
    slot? (s ++ '\x7d' :: '\x7d' :: rest) = some (Text.trim s, rest) := by
  have inside : ∀ c ∈ s, (!isBrace c) = true := fun c member => by simp [bare c member]
  have ends : ∀ c ∈ ('\x7d' :: '\x7d' :: rest).head?, (!isBrace c) = false := by
    rintro c ⟨⟩
    decide
  obtain ⟨taken, left⟩ := Text.run_append inside ends
  simp only [slot?, taken, left, if_neg filled]

/-- A slot is read behind two braces exactly where they begin a segment. -/
theorem slot?_eq_some_iff :
    slot? s = some (path, rest) ↔
      ∃ segment, IsSegment path segment ∧ '\x7b' :: '\x7b' :: s = segment ++ rest := by
  constructor
  · intro found
    have split : s.takeWhile (fun c => !isBrace c) ++ s.dropWhile (fun c => !isBrace c) = s :=
      List.takeWhile_append_dropWhile
    have bare : ∀ c ∈ s.takeWhile (fun c => !isBrace c), isBrace c = false := fun c member => by
      simpa using List.mem_takeWhile_imp member
    simp only [slot?] at found
    generalize s.takeWhile (fun c => !isBrace c) = inner at split bare found
    generalize s.dropWhile (fun c => !isBrace c) = outer at split found
    split at found
    · rename_i tail
      split at found
      · cases found
      · rename_i filled
        cases found
        obtain ⟨before, behind, blank, blank', same⟩ := Text.trim_split inner
        refine ⟨_, ⟨isPath_trim filled bare, before, behind, blank, blank', rfl⟩, ?_⟩
        rw [← same, ← split]
        simp
    · cases found
  · rintro ⟨segment, formed, same⟩
    obtain ⟨inner, -, bare, trimmed, rfl⟩ := formed.inner
    have inside : s = inner ++ '\x7d' :: '\x7d' :: rest := by simpa using same
    rw [inside, ← trimmed]
    exact slot?_of_bare bare (trimmed ▸ formed.1.filled)

/-- At one place there is at most one segment. -/
theorem IsSegment.unique (formed : IsSegment path segment) (formed' : IsSegment path' segment')
    (same : segment ++ rest = segment' ++ rest') :
    path = path' ∧ segment = segment' ∧ rest = rest' := by
  obtain ⟨inner, -, -, -, shape⟩ := formed.inner
  have first : slot? (inner ++ ['\x7d', '\x7d'] ++ rest) = some (path, rest) :=
    slot?_eq_some_iff.mpr ⟨segment, formed, by rw [shape]; rfl⟩
  have second : slot? (inner ++ ['\x7d', '\x7d'] ++ rest) = some (path', rest') :=
    slot?_eq_some_iff.mpr ⟨segment', formed', by rw [← same, shape]; rfl⟩
  obtain ⟨rfl, rfl⟩ : path = path' ∧ rest = rest' := by
    simpa using first.symm.trans second
  exact ⟨rfl, List.append_cancel_right same, rfl⟩

/-- A segment that begins behind the beginning of another one begins behind its end. -/
theorem IsSegment.apart (formed : IsSegment path segment) (formed' : IsSegment path' segment')
    (later : before ≠ []) (same : segment ++ rest = before ++ segment' ++ behind) :
    ∃ more, before = segment ++ more ∧ rest = more ++ segment' ++ behind := by
  obtain ⟨inner, filled, bare, -, rfl⟩ := formed.inner
  obtain ⟨inner', -, -, -, shape'⟩ := formed'.inner
  rw [List.append_assoc] at same
  obtain ⟨more, rfl, tail⟩ | ⟨shared, overlap, same⟩ := List.append_eq_append_iff.mp same
  · exact ⟨more, rfl, by rw [tail, List.append_assoc]⟩
  · cases shared with
    | nil => exact ⟨[], by simpa using overlap.symm, by simpa using same.symm⟩
    | cons c shared =>
      -- the overlap would begin with an opening brace, and behind the first two there is none
      have opening : c = '\x7b' ∧ '\x7b' ∈ (shared ++ rest).head? := by
        rw [shape'] at same
        simp only [List.cons_append, List.cons.injEq] at same
        exact ⟨same.1.symm, by rw [← same.2]; rfl⟩
      obtain ⟨rfl, second⟩ := opening
      have none : '\x7b' ∉ inner ++ ['\x7d', '\x7d'] := by
        simp only [List.mem_append, List.mem_cons, List.not_mem_nil, or_false, not_or]
        exact ⟨fun member => absurd (bare _ member) (by decide), by decide, by decide⟩
      rcases before with _ | ⟨first, _ | ⟨next, before⟩⟩
      · exact absurd rfl later
      · simp only [List.cons_append, List.nil_append, List.cons.injEq, true_and] at overlap
        rw [← overlap.2] at second
        refine absurd ?_ none
        rw [List.append_assoc, List.head?_append_of_ne_nil _ filled] at second
        exact List.mem_append_left _ (List.mem_of_mem_head? second)
      · simp only [List.cons_append, List.cons.injEq] at overlap
        rw [overlap.2.2] at none
        simp at none

theorem Plain.of_append (plain : Plain (s ++ t)) : Plain s :=
  fun path segment rest same => plain path segment (rest ++ t) (by rw [same, List.append_assoc])

theorem free_nil : Free [] := by
  intro before path segment behind same formed
  simp only [List.nil_eq, List.append_eq_nil_iff] at same
  exact formed.ne_nil same.1.2

/-- Where no segment begins, all that follow lie behind the first character. -/
theorem Plain.past (plain : Plain (c :: s)) (formed : IsSegment path segment)
    (same : c :: s = before ++ segment ++ behind) :
    ∃ before', before = c :: before' ∧ s = before' ++ segment ++ behind := by
  cases before with
  | nil => exact absurd formed (plain path segment behind same)
  | cons d before' =>
    simp only [List.cons_append, List.cons.injEq] at same
    exact ⟨before', by rw [same.1], same.2⟩

theorem Free.cons (free : Free s) (plain : Plain (c :: s)) : Free (c :: s) := by
  intro before path segment behind same formed
  obtain ⟨before', -, same'⟩ := plain.past formed same
  exact free before' path segment behind same' formed

theorem scan_segment (formed : IsSegment path segment) :
    scan (segment ++ rest) = .slot (String.ofList path) :: scan rest := by
  obtain ⟨inner, -, -, -, rfl⟩ := formed.inner
  have found : slot? (inner ++ ['\x7d', '\x7d'] ++ rest) = some (path, rest) :=
    slot?_eq_some_iff.mpr ⟨_, formed, rfl⟩
  simp only [List.cons_append]
  rw [scan]
  split
  · rename_i found'
    obtain ⟨rfl, rfl⟩ : _ = path ∧ _ = rest := by simpa using found'.symm.trans found
    rfl
  · rename_i missed
    cases missed.symm.trans found

theorem scan_plain (plain : Plain (c :: s)) : scan (c :: s) = .literal c :: scan s := by
  by_cases braces : ∃ t, c = '\x7b' ∧ s = '\x7b' :: t
  · obtain ⟨t, rfl, rfl⟩ := braces
    rw [scan]
    split
    · rename_i found
      obtain ⟨segment, formed, same⟩ := slot?_eq_some_iff.mp found
      exact absurd formed (plain _ _ _ same)
    · rfl
  · rw [scan]
    rintro t rfl rfl
    exact braces ⟨t, rfl, rfl⟩

end Segments

section Splitting

/-- Literal text and the segment behind it. -/
structure Part where
  literal : List Char
  path : List Char
  segment : List Char

/-- The text that parts make up, with literal text behind the last of them. -/
def written (parts : List Part) (last : List Char) : List Char :=
  parts.flatMap (fun part => part.literal ++ part.segment) ++ last

/-- The parts are all there is to a text: between them stands text without segments, and wherever
a segment occurs, it is the one of some part. -/
structure Splits (text : List Char) (parts : List Part) (last : List Char) : Prop where
  whole : text = written parts last
  formed : ∀ part ∈ parts, IsSegment part.path part.segment
  free : (∀ part ∈ parts, Free part.literal) ∧ Free last
  complete : ∀ before path segment behind, IsSegment path segment →
    text = before ++ segment ++ behind → ∃ earlier part later, parts = earlier ++ part :: later ∧
      part.path = path ∧ part.segment = segment ∧ before = written earlier part.literal

def Part.pieces (part : Part) : List Piece :=
  part.literal.map .literal ++ [.slot (String.ofList part.path)]

variable {path segment s rest last : List Char} {parts : List Part} {c : Char}

theorem written_cons (part : Part) (parts : List Part) (last : List Char) :
    written (part :: parts) last = part.literal ++ part.segment ++ written parts last := by
  simp [written]

theorem Splits.cons_segment (split : Splits rest parts last) (formed : IsSegment path segment) :
    Splits (segment ++ rest) (⟨[], path, segment⟩ :: parts) last where
  whole := by rw [split.whole, written_cons, List.nil_append]
  formed := List.forall_mem_cons.mpr ⟨formed, split.formed⟩
  free := ⟨List.forall_mem_cons.mpr ⟨free_nil, split.free.1⟩, split.free.2⟩
  complete before path' segment' behind formed' same := by
    by_cases first : before = []
    · subst first
      obtain ⟨rfl, rfl, -⟩ := formed.unique formed' same
      exact ⟨[], _, parts, rfl, rfl, rfl, rfl⟩
    · obtain ⟨more, rfl, tail⟩ := formed.apart formed' first same
      obtain ⟨earlier, part, later, rfl, samePath, sameSegment, rfl⟩ :=
        split.complete more path' segment' behind formed' tail
      exact ⟨_ :: earlier, part, later, rfl, samePath, sameSegment, by rw [written_cons]; rfl⟩

/-- A character at which no segment begins goes to the literal text that it stands before. -/
theorem Splits.cons_plain (split : Splits s parts last) (plain : Plain (c :: s)) :
    ∃ parts' last', Splits (c :: s) parts' last' ∧
      parts'.flatMap Part.pieces ++ last'.map .literal =
        .literal c :: (parts.flatMap Part.pieces ++ last.map .literal) := by
  cases parts with
  | nil =>
    have same : s = last := split.whole
    subst same
    refine ⟨[], c :: s, ⟨rfl, by simp, ⟨by simp, split.free.2.cons plain⟩, ?_⟩, by simp⟩
    intro before path segment behind formed same
    obtain ⟨before', -, same'⟩ := plain.past formed same
    obtain ⟨earlier, part, later, none, -⟩ := split.complete _ _ _ _ formed same'
    simp at none
  | cons part parts =>
    have start : Plain (c :: part.literal) := by
      have plain' := plain
      rw [split.whole, written_cons, List.append_assoc] at plain'
      exact Plain.of_append plain'
    obtain ⟨formed, formeds⟩ := List.forall_mem_cons.mp split.formed
    obtain ⟨free, frees⟩ := List.forall_mem_cons.mp split.free.1
    refine ⟨{ part with literal := c :: part.literal } :: parts, last, ⟨?_, ?_, ?_, ?_⟩, ?_⟩
    · rw [split.whole, written_cons, written_cons]
      rfl
    · exact List.forall_mem_cons.mpr ⟨formed, formeds⟩
    · exact ⟨List.forall_mem_cons.mpr ⟨free.cons start, frees⟩, split.free.2⟩
    · intro before path segment behind formed same
      obtain ⟨before', rfl, same'⟩ := plain.past formed same
      obtain ⟨earlier, part', later, among, samePath, sameSegment, rfl⟩ :=
        split.complete _ _ _ _ formed same'
      cases earlier with
      | nil =>
        simp only [List.nil_append, List.cons.injEq] at among
        obtain ⟨rfl, rfl⟩ := among
        exact ⟨[], _, parts, rfl, samePath, sameSegment, rfl⟩
      | cons first earlier =>
        simp only [List.cons_append, List.cons.injEq] at among
        obtain ⟨rfl, rfl⟩ := among
        exact ⟨_ :: earlier, part', later, rfl, samePath, sameSegment, by simp [written_cons]⟩
    · simp [Part.pieces]

theorem splits_scan_cons (plain : Plain (c :: s))
    (tail : ∃ parts last, Splits s parts last ∧
      scan s = parts.flatMap Part.pieces ++ last.map .literal) :
    ∃ parts last, Splits (c :: s) parts last ∧
      scan (c :: s) = parts.flatMap Part.pieces ++ last.map .literal := by
  obtain ⟨parts, last, split, scanned⟩ := tail
  obtain ⟨parts', last', split', pieces⟩ := split.cons_plain plain
  exact ⟨parts', last', split', by rw [scan_plain plain, scanned, pieces]⟩

/-- The scan takes a text apart at its segments. -/
theorem splits_scan (s : List Char) :
    ∃ parts last, Splits s parts last ∧
      scan s = parts.flatMap Part.pieces ++ last.map .literal := by
  induction s using scan.induct with
  | case1 s path rest found _ ih =>
    obtain ⟨segment, formed, same⟩ := slot?_eq_some_iff.mp found
    obtain ⟨parts, last, split, scanned⟩ := ih
    rw [same]
    refine ⟨_, last, split.cons_segment formed, ?_⟩
    rw [scan_segment formed, scanned]
    rfl
  | case2 s missed ih =>
    refine splits_scan_cons (fun path segment rest same formed => ?_) ih
    cases missed.symm.trans (slot?_eq_some_iff.mpr ⟨segment, formed, same⟩)
  | case3 c s shape ih =>
    refine splits_scan_cons (fun path segment rest same formed => ?_) ih
    obtain ⟨inner, -, -, -, rfl⟩ := formed.inner
    simp only [List.cons_append, List.cons.injEq] at same
    exact shape _ same.1 same.2
  | case4 =>
    refine ⟨[], [], ⟨rfl, by simp, ⟨by simp, free_nil⟩, ?_⟩, by rw [scan]; rfl⟩
    intro before path segment behind formed same
    exact absurd formed (free_nil before path segment behind same)

theorem paths_pieces (parts : List Part) (last : List Char) :
    paths (parts.flatMap Part.pieces ++ last.map .literal) =
      parts.map fun part => String.ofList part.path := by
  have none : ∀ s : List Char, paths (s.map .literal) = [] := fun s => by
    simp [paths, List.filterMap_map, Function.comp_def, Piece.path?]
  rw [paths, List.filterMap_append, ← paths, ← paths, none, List.append_nil]
  induction parts with
  | nil => rfl
  | cons part parts ih =>
    rw [List.flatMap_cons, paths, List.filterMap_append, ← paths, ← paths, ih, Part.pieces, paths,
      List.filterMap_append, ← paths, none]
    rfl

end Splitting

section Rendering

/-- The literal texts with the shown text of a value in place of each segment. -/
def fill (parts : List Part) (last : List Char) (values : List Value) : String :=
  String.join (List.zipWith (fun part value => String.ofList part.literal ++ value.display)
    parts values) ++ String.ofList last

/-- Look-ups one after the other, on a state that each may change. The first that fails is the
last. -/
inductive LooksUp {σ ε : Type} (lookup : String → ExceptT ε (StateM σ) Value) :
    List String → σ → Except ε (List Value) → σ → Prop
  | done {s : σ} : LooksUp lookup [] s (.ok []) s
  | next {path : String} {paths : List String} {s s' s'' : σ} {value : Value}
      {r : Except ε (List Value)} (found : (lookup path).run.run s = (.ok value, s'))
      (rest : LooksUp lookup paths s' r s'') :
      LooksUp lookup (path :: paths) s (r.map (value :: ·)) s''
  | ends {path : String} {paths : List String} {s s' : σ} {e : ε}
      (missed : (lookup path).run.run s = (.error e, s')) :
      LooksUp lookup (path :: paths) s (.error e) s'

def shown {m : Type → Type} [Monad m] (lookup : String → m Value) : Piece → m String
  | .literal c => pure (String.singleton c)
  | .slot path => do return (← lookup path).display

section

variable {m : Type → Type} [Monad m] [LawfulMonad m] (lookup : String → m Value)

theorem render_eq_join (template : List Piece) :
    render lookup template = String.join <$> template.mapM (shown lookup) := by
  unfold render
  rw [map_eq_pure_bind]
  refine congrArg (· >>= fun parts => pure (String.join parts)) (congrArg (List.mapM · template) ?_)
  funext piece
  cases piece <;> rfl

theorem mapM_shown_literal (s : List Char) :
    (s.map Piece.literal).mapM (shown lookup) = pure (s.map String.singleton) := by
  rw [List.mapM_map]
  exact List.mapM_pure

theorem join_singleton (s : List Char) :
    String.join (s.map String.singleton) = String.ofList s := by
  induction s with
  | nil => rfl
  | cons c s ih => simp [ih]

theorem render_append (front back : List Piece) :
    render lookup (front ++ back) =
      render lookup front >>= fun text => (text ++ ·) <$> render lookup back := by
  simp only [render_eq_join, List.mapM_append, map_bind, bind_map_left, map_pure, Functor.map_map,
    String.join_append]
  simp

theorem render_literal (s : List Char) :
    render lookup (s.map .literal) = pure (String.ofList s) := by
  rw [render_eq_join, mapM_shown_literal, map_pure, join_singleton]

theorem render_part (part : Part) :
    render lookup part.pieces =
      (fun value => String.ofList part.literal ++ value.display) <$>
        lookup (String.ofList part.path) := by
  rw [Part.pieces, render_append, render_literal, pure_bind]
  simp [render_eq_join, shown]

theorem render_pieces (parts : List Part) (last : List Char) :
    render lookup (parts.flatMap Part.pieces ++ last.map .literal) =
      fill parts last <$> (parts.map fun part => String.ofList part.path).mapM lookup := by
  induction parts with
  | nil =>
    rw [List.flatMap_nil, List.nil_append, render_literal]
    simp [fill]
  | cons part parts ih =>
    rw [List.flatMap_cons, List.append_assoc, render_append, ih, render_part, List.map_cons,
      List.mapM_cons]
    simp [fill, String.append_assoc]

end

theorem looksUp_mapM {σ ε : Type} (lookup : String → ExceptT ε (StateM σ) Value)
    (paths : List String) (s : σ) :
    LooksUp lookup paths s ((paths.mapM lookup).run.run s).1 ((paths.mapM lookup).run.run s).2 := by
  induction paths generalizing s with
  | nil => exact .done
  | cons path paths ih =>
    rcases found : (lookup path).run.run s with ⟨e | value, s'⟩
    · have same : ((path :: paths).mapM lookup).run.run s = (.error e, s') := by
        simp only [List.mapM_cons, ExceptT.run_bind, StateT.run_bind, found]
        rfl
      rw [same]
      exact .ends found
    · have same : ((path :: paths).mapM lookup).run.run s =
        (((paths.mapM lookup).run.run s').1.map (value :: ·),
          ((paths.mapM lookup).run.run s').2) := by
        simp only [List.mapM_cons, ExceptT.run_bind, StateT.run_bind, found]
        change StateT.run ((paths.mapM lookup).run >>= _) s' = _
        rw [StateT.run_bind]
        rcases (paths.mapM lookup).run.run s' with ⟨e | values, s''⟩ <;> rfl
      rw [same]
      exact .next found (ih s')

/-- Every text falls apart at its segments, and all that is done with it goes by them: its paths are
theirs, and rendering looks these up from the left until one look-up fails, and puts what was found
between the literal texts as it is. -/
theorem interpolation_exact (text : String) :
    ∃ parts last, Splits text.toList parts last ∧
      paths (ofString text) = parts.map (fun part => String.ofList part.path) ∧
      (hasSlot (ofString text) = true ↔ 0 < parts.length) ∧
      (∀ {m : Type → Type} [Monad m] [LawfulMonad m] (lookup : String → m Value),
        render lookup (ofString text) = fill parts last <$> (paths (ofString text)).mapM lookup) ∧
      ∀ {σ ε : Type} (lookup : String → ExceptT ε (StateM σ) Value) (s : σ),
        ∃ r s', LooksUp lookup (paths (ofString text)) s r s' ∧
          (render lookup (ofString text)).run.run s = (r.map (fill parts last), s') := by
  obtain ⟨parts, last, split, scanned⟩ := splits_scan text.toList
  have named : paths (ofString text) = parts.map fun part => String.ofList part.path := by
    rw [ofString, scanned, paths_pieces]
  have rendered : ∀ {m : Type → Type} [Monad m] [LawfulMonad m] (lookup : String → m Value),
      render lookup (ofString text) = fill parts last <$> (paths (ofString text)).mapM lookup := by
    intro m _ _ lookup
    rw [named, ofString, scanned, render_pieces]
  refine ⟨parts, last, split, named, ?_, rendered, fun lookup s => ?_⟩
  · rw [hasSlot, named]
    cases parts <;> simp
  · refine ⟨_, _, looksUp_mapM lookup (paths (ofString text)) s, ?_⟩
    rw [rendered, ExceptT.run_map]
    rfl

example : paths (ofString ("\x7b\x7b\x7ba\x7d\x7d\x7d\x7b\x7b\n b c\t\x7d\x7d" ++
    "\x7b\x7b \x7d\x7d\x7b\x7b\x7b\x7bd\x7d\x7d \x7d\x7d")) = ["a", "b c", "d"] := by
  decide +kernel

end Rendering
end ReactiveView.Template
