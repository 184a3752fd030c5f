import ReactiveView.Proofs.View.Attaching

/-! The walk that binds a view. It visits what is below the fragment, level by level, and it visits
a node when nothing below that node is bound yet. Afterwards every text that no directive above it
replaces is bound, and every element that can be reached is settled. The text that `v-text` gives to
an element is visited with the rest, and is rendered if it holds slots. -/
namespace ReactiveView

variable {κ : Type}

/-- Binds a node and what is below it. -/
def View.visit (perform : Performer κ) (v : ViewId) (d : DocumentId) (levels : Nat) (id : NodeId) :
    Run κ Unit := do
  let node ← Run.node ⟨d, id⟩
  match node.kind with
  | .element =>
    Binding.element perform v ⟨d, id⟩
    View.bindBelow perform v d levels id
  | .text =>
    let pieces := Template.ofString node.data
    if Template.hasSlot pieces then Binding.template perform v ⟨d, id⟩ pieces
  | .comment | .fragment => return

theorem View.bindBelow_eq (perform : Performer κ) (v : ViewId) (d : DocumentId) (levels : Nat)
    (parent : NodeId) : View.bindBelow perform v d (levels + 1) parent =
      Run.node ⟨d, parent⟩ >>= fun n =>
        View.visitAll d (View.visit perform v d levels) n.children :=
  rfl

namespace Site

open Document Run

variable {site : Site κ} {perform : Performer κ} {prior : Listener κ → Prop}
  {bound bound' avoided avoided' : NodeId → Prop}
  {w w' : World κ} {x y p n : NodeId}

/-- The node itself, or what was below it when the walk began. -/
def Under (site : Site κ) (x n : NodeId) : Prop :=
  n = x ∨ Above site.base x n

/-- The parent of a node on the walk. -/
def Opens (site : Site κ) (w : World κ) (p : NodeId) : Prop :=
  p = site.top ∨ Above (site.doc w) site.top p

/-- The node and the elements reached from it are settled. -/
def Done (site : Site κ) (w : World κ) (x : NodeId) : Prop :=
  ∀ n, n = x ∨ ((site.doc w).node x).kind = .element ∧
    Reached (·.kind = .element) (site.doc w) x n → site.Settled w n

namespace Walked

variable (walked : site.Walked prior bound w)
include walked

/-- A node above a text that keeps its place keeps its own place. -/
theorem exposed_of_under (text : site.Text n) (under : site.Under x n) (lower : x ≠ site.top) :
    site.Exposed x ∧ (n ≠ x → (site.base.node x).KeepsChildren) := by
  rcases under with rfl | above
  · exact ⟨text.1, fun other => (other rfl).elim⟩
  · obtain ⟨exposed, keeps⟩ := text.1.between walked.base.2 above lower
    exact ⟨exposed, fun _ => keeps⟩

theorem ne_top_of_parent (parent : ((site.doc w).node x).parent = some p) : x ≠ site.top := by
  rintro rfl
  cases walked.holds.topless.symm.trans parent

/-- Siblings have no such text below them in common. -/
theorem not_under_sibling (text : site.Text n) (other : y ≠ x)
    (parent : ((site.doc w).node x).parent = some p)
    (parent' : ((site.doc w).node y).parent = some p) (under : site.Under x n) :
    ¬ site.Under y n := by
  intro under'
  obtain ⟨exposed, -⟩ := walked.exposed_of_under text under (walked.ne_top_of_parent parent)
  obtain ⟨exposed', -⟩ := walked.exposed_of_under text under' (walked.ne_top_of_parent parent')
  rw [(walked.holds.exposed x exposed).1] at parent
  rw [(walked.holds.exposed y exposed').1] at parent'
  rcases under with rfl | above <;> rcases under' with same | above'
  · exact other same.symm
  · exact not_above_sibling walked.base.1 parent' parent above'
  · exact not_above_sibling walked.base.1 parent parent' (same ▸ above)
  · rcases above.linear above' with same | first | second
    · exact other same.symm
    · exact not_above_sibling walked.base.1 parent parent' first
    · exact not_above_sibling walked.base.1 parent' parent second

/-- The texts below a node that keep their places are those below its children. -/
theorem above_iff (text : site.Text n) : (∃ x ∈ ((site.doc w).node p).children, site.Under x n) ↔
    Above site.base p n := by
  constructor
  · rintro ⟨x, member, under⟩
    have parent := (walked.holds.formed.links p x).mp member
    obtain ⟨exposed, -⟩ := walked.exposed_of_under text under (walked.ne_top_of_parent parent)
    rw [(walked.holds.exposed x exposed).1] at parent
    rcases under with rfl | above
    · exact .parent parent
    · exact .trans (.parent parent) above
  · intro above
    obtain ⟨y, parent, under⟩ := above.first
    have lower : y ≠ site.top := by
      rintro rfl
      cases walked.base.2.symm.trans parent
    obtain ⟨exposed, -⟩ := walked.exposed_of_under text under lower
    refine ⟨y, (walked.holds.formed.links p y).mpr ?_, under⟩
    rw [(walked.holds.exposed y exposed).1, parent]

end Walked

/-- What is spared below the children of a node is spared below the node. -/
theorem Advances.widen (advances : site.Advances avoided w w')
    (topless : ((site.doc w).node site.top).parent = none)
    (wider : ∀ n, avoided n → avoided' n ∨ ∃ p, avoided' p ∧
      ((site.doc w).node n).parent = some p) : site.Advances avoided' w w' :=
  { advances with spares := advances.spares.widen topless wider }

theorem Advances.unpin {pins : List Pin}
    (advances : site.Advances avoided { w with pins := pins } w') :
    site.Advances avoided w { w' with pins := w.pins } where
  pins := rfl
  spares := advances.spares
  has := advances.has
  linked := advances.linked
  bound n bound := by
    obtain ⟨kind, some, linked, shows⟩ := advances.bound n
      ⟨bound.kind, bound.some, bound.linked, bound.shows⟩
    exact ⟨kind, some, linked, shows⟩

/-- What visiting a text makes of it: what it comes to when it is taken for a template. -/
def Renders (site : Site κ) (w w' : World κ) (x : NodeId) : Prop :=
  ((site.doc w).node x).kind = .text → ((site.doc w').node x).kind = .text ∧
    site.data.render (Template.ofString ((site.doc w).node x).data) =
      .ok ((site.doc w').node x).data

/-- What visiting a child of an opened node does. -/
def Visits (site : Site κ) (prior : Listener κ → Prop) (visit : NodeId → Run κ Unit) : Prop :=
  ∀ {bound : NodeId → Prop} {w w' : World κ} {x p : NodeId}, site.Walked prior bound w →
    site.Opens w p → ((site.doc w).node x).parent = some p →
    (∀ n, site.Text n → site.Under x n → ¬ bound n) → visit x w = some (.ok (), w') →
    site.Walked prior (fun n => bound n ∨ site.Under x n) w' ∧ site.Advances (· = x) w w' ∧
      site.Done w' x ∧ site.Renders w w' x

/-- What is not below some children of a node stays, the other children and all below
them included. -/
theorem Advances.sibling (advances : site.Advances avoided w w')
    (walked : site.Walked prior bound w) (opens : site.Opens w p)
    (parent : ((site.doc w).node y).parent = some p)
    (others : ∀ m, avoided m → m ≠ y ∧ ((site.doc w).node m).parent = some p) :
    Above (site.doc w) site.top y ∧
      (∀ m, avoided m → ¬ (m = y ∨ Above (site.doc w) m y ∧
        (m = site.top ∨ Above (site.doc w) site.top m) ∨ Above (site.doc w) y m)) ∧
      ∀ m, m = y ∨ Above (site.doc w) y m → ((site.doc w).node m).Stays ((site.doc w').node m) := by
  have below : Above (site.doc w) site.top y := by
    rcases opens with rfl | above
    · exact .parent parent
    · exact .further parent above
  have apart := fun m avoids =>
    siblings_apart site.top walked.holds.formed (others m avoids).1 parent (others m avoids).2
  exact ⟨below, apart, fun m lower =>
    advances.spares _ (closed_family below) apart m (lower.imp_right .inr)⟩

/-- What was done at a child outlasts what is done below other children. -/
theorem Done.outlasts (done : site.Done w y) (walked : site.Walked prior bound w)
    (walked' : site.Walked prior bound' w') (advances : site.Advances avoided w w')
    (opens : site.Opens w p) (parent : ((site.doc w).node y).parent = some p)
    (others : ∀ m, avoided m → m ≠ y ∧ ((site.doc w).node m).parent = some p) : site.Done w' y := by
  obtain ⟨below, apart, family⟩ := advances.sibling walked opens parent others
  have children : ∀ n, n = y ∨ Above (site.doc w) y n → ∀ c ∈ ((site.doc w).node n).children,
      ((site.doc w).node c).Stays ((site.doc w').node c) := by
    intro n lower c member
    have child := (walked.holds.formed.links n c).mp member
    refine family c (.inr ?_)
    rcases lower with rfl | above
    · exact .parent child
    · exact .further child above
  have stays := family y (.inl rfl)
  rintro n (rfl | ⟨kind, reached⟩)
  · exact (done n (.inl rfl)).stays advances stays (children n (.inl rfl))
  · obtain ⟨before, stays'⟩ := advances.spares.reached walked.holds.formed walked'.holds.formed
      below apart reached
    exact (done n (.inr ⟨stays.kind ▸ kind, before⟩)).stays advances stays'
      (children n (.inr before.above))

theorem Renders.trans_stays {w'' : World κ} (renders : site.Renders w w' y)
    (stays : ((site.doc w').node y).Stays ((site.doc w'').node y)) : site.Renders w w'' y := by
  intro isText
  obtain ⟨kind, rendered⟩ := renders isText
  exact ⟨stays.kind.trans kind, rendered.trans (congrArg Except.ok stays.data.symm)⟩

theorem Renders.of_stays {w'' : World κ} (renders : site.Renders w' w'' y)
    (stays : ((site.doc w).node y).Stays ((site.doc w').node y)) : site.Renders w w'' y := by
  intro isText
  have rendered := renders (stays.kind.trans isText)
  rwa [stays.data] at rendered

theorem visitAll_walked {visit : NodeId → Run κ Unit} (visits : site.Visits prior visit)
    {ids : List NodeId} (once : ids.Nodup) (walked : site.Walked prior bound w)
    (opens : site.Opens w p) (children : ∀ x ∈ ids, ((site.doc w).node x).parent = some p)
    (waits : ∀ x ∈ ids, ∀ n, site.Text n → site.Under x n → ¬ bound n)
    (ran : View.visitAll site.document visit ids w = some (.ok (), w')) :
    site.Walked prior (fun n => bound n ∨ ∃ x ∈ ids, site.Under x n) w' ∧
      site.Advances (· ∈ ids) w w' ∧ ∀ x ∈ ids, site.Done w' x ∧ site.Renders w w' x := by
  induction ids generalizing w bound with
  | nil =>
    obtain ⟨-, rfl⟩ := Prod.mk.inj (Option.some.inj ran)
    exact ⟨walked.rebind fun n _ => by simp, .refl _ _, nofun⟩
  | cons x rest ih =>
    obtain ⟨fresh, once⟩ := List.nodup_cons.mp once
    have parent := children x List.mem_cons_self
    have siblings : ∀ r ∈ rest, ((site.doc w).node r).parent = some p :=
      fun r member => children r (List.mem_cons_of_mem _ member)
    obtain ⟨_, w₁, first, ran⟩ := bind_eq_ok ran
    obtain ⟨inner, visited, rfl⟩ := pinning_eq_some first
    have pinned := walked.repin (((x :: rest).map fun id => .node ⟨site.document, id⟩) ++ w.pins)
      (List.mem_append_right _ walked.alive) (List.mem_append_right _ walked.pinned)
    obtain ⟨walkedInner, advancesInner, done, renders⟩ :=
      visits pinned opens parent (waits x List.mem_cons_self) visited
    have walked₁ := walkedInner.repin w.pins walked.alive walked.pinned
    have advances := advancesInner.unpin
    have done : site.Done { inner with pins := w.pins } x := by
      intro n below
      obtain ⟨isBound, text⟩ := done n below
      refine ⟨fun kind some => ?_, text⟩
      obtain ⟨kind, some, linked, shows⟩ := isBound kind some
      exact ⟨kind, some, linked, shows⟩
    obtain ⟨opens₁, -, stay⟩ := advances.spares.line walked.holds.topless walked.holds.formed
      walked₁.holds.formed opens fun m same => same ▸ parent
    have waits₁ : ∀ r ∈ rest, ∀ n, site.Text n → site.Under r n → ¬ (bound n ∨ site.Under x n) := by
      rintro r member n text under (already | underFirst)
      · exact waits r (List.mem_cons_of_mem _ member) n text under already
      · have other : x ≠ r := fun same => fresh (same ▸ member)
        exact walked.not_under_sibling text other (siblings r member) parent under underFirst
    obtain ⟨walked', advances', doneRest⟩ := ih once walked₁ opens₁
      (fun r member => stay r (siblings r member)) waits₁ ran
    refine ⟨walked'.rebind fun n _ => ?_, ?_, fun y member => ?_⟩
    · simp only [List.mem_cons, exists_eq_or_imp, or_assoc]
    · refine (advances.widen walked.holds.topless fun n same => .inl ?_).trans
        (advances'.widen walked₁.holds.topless fun n member => .inl ?_)
      · exact same ▸ List.mem_cons_self
      · exact List.mem_cons_of_mem _ member
    · rcases List.mem_cons.mp member with rfl | member
      · -- The visits of the siblings spare the node and what is below it.
        have others : ∀ m ∈ rest, m ≠ y ∧
            ((site.doc { inner with pins := w.pins }).node m).parent = some p := fun m member =>
          ⟨fun same => fresh (same ▸ member), stay m (siblings m member)⟩
        obtain ⟨-, -, family⟩ := advances'.sibling walked₁ opens₁ (stay y parent) others
        exact ⟨done.outlasts walked₁ walked' advances' opens₁ (stay y parent) others,
          renders.trans_stays (family y (.inl rfl))⟩
      · obtain ⟨-, -, family⟩ := advances.sibling walked opens (siblings y member)
          fun m same => ⟨fun here => fresh (same.symm.trans here ▸ member), same ▸ parent⟩
        exact ⟨(doneRest y member).1, (doneRest y member).2.of_stays (family y (.inl rfl))⟩

/-- What binding everything below an opened node does. -/
def Descends (site : Site κ) (prior : Listener κ → Prop) (perform : Performer κ) (levels : Nat) :
    Prop :=
  ∀ {bound : NodeId → Prop} {w w' : World κ} {p : NodeId}, site.Walked prior bound w →
    site.Opens w p → (∀ n, site.Text n → Above site.base p n → ¬ bound n) →
    View.bindBelow perform site.view site.document levels p w = some (.ok (), w') →
    site.Walked prior (fun n => bound n ∨ Above site.base p n) w' ∧
      site.Advances (· = p) w w' ∧ ((site.doc w).node p).Stays ((site.doc w').node p) ∧
      (∀ n, Reached (·.kind = .element) (site.doc w') p n → site.Settled w' n) ∧
      ∀ x ∈ ((site.doc w).node p).children, site.Renders w w' x

/-- No text that keeps its place is below a node that is no element. -/
theorem Walked.under_iff_of_leaf (walked : site.Walked prior bound w)
    (parent : ((site.doc w).node x).parent = some p)
    (leaf : ((site.doc w).node x).kind ≠ .element) (text : site.Text n) :
    site.Under x n ↔ n = x := by
  refine ⟨fun under => ?_, .inl⟩
  by_cases other : n = x
  · exact other
  · obtain ⟨exposed, keeps⟩ :=
      walked.exposed_of_under text under (walked.ne_top_of_parent parent)
    exact (leaf ((walked.holds.exposed x exposed).2.1.trans (keeps other).1)).elim

theorem done_of_leaf (leaf : ((site.doc w).node x).kind ≠ .element) : site.Done w x := by
  rintro n (rfl | ⟨element, -⟩)
  · exact ⟨fun element => (leaf element).elim, fun _ element => (leaf element).elim⟩
  · exact (leaf element).elim

/-- An element whose content was set is settled when the content was visited. -/
theorem Quotes.interprets {path : String} (quotes : site.Quotes w x path)
    (children : ((site.doc w').node x).children = ((site.doc w).node x).children)
    (renders : ∀ c ∈ ((site.doc w).node x).children, site.Renders w w' c) :
    site.Interprets w' x path := by
  obtain ⟨v, read, ⟨none, isEmpty⟩ | ⟨c, only, isText, data⟩⟩ := quotes
  · refine ⟨v, "", read, ?_, .inl ⟨children.trans none, rfl⟩⟩
    rw [isEmpty]
    exact Store.render_of_noSlot _ (by simp [Template.hasSlot, Template.ofString, Template.scan,
      Template.paths])
  · obtain ⟨kind, rendered⟩ := renders c (only ▸ List.mem_singleton_self c) isText
    exact ⟨v, _, read, data ▸ rendered, .inr ⟨c, children.trans only, kind, rfl⟩⟩

/-- Nothing is done at a node that is neither an element nor a text with slots. -/
theorem Walked.passed (walked : site.Walked prior bound w)
    (parent : ((site.doc w).node x).parent = some p)
    (leaf : ((site.doc w).node x).kind ≠ .element) (noText : ¬ site.Text x)
    (noSlot : ((site.doc w).node x).kind = .text →
      Template.hasSlot (Template.ofString ((site.doc w).node x).data) = false) :
    site.Walked prior (fun n => bound n ∨ site.Under x n) w ∧
      site.Advances (· = x) w w ∧ site.Done w x ∧ site.Renders w w x := by
  refine ⟨walked.rebind fun n text => ?_, .refl _ _, done_of_leaf leaf, fun isText =>
    ⟨isText, Store.render_of_noSlot _ (noSlot isText)⟩⟩
  have apart : n ≠ x := fun same => noText (same ▸ text)
  rw [walked.under_iff_of_leaf parent leaf text]
  simp [apart]

theorem visit_walked {levels : Nat} (deeper : site.Descends prior perform levels) :
    site.Visits prior (View.visit perform site.view site.document levels) := by
  intro bound w w' x p walked opens parent waits ran
  have below : Above (site.doc w) site.top x := by
    rcases opens with rfl | above
    · exact .parent parent
    · exact .further parent above
  have isText : site.Text x → ((site.doc w).node x).kind = .text :=
    fun text => (walked.holds.exposed x text.1).2.1.trans text.2.1
  unfold View.visit at ran
  rw [bind_of_ok
    (show Run.node ⟨site.document, x⟩ w = some (.ok ((site.doc w).node x), w) from rfl)] at ran
  cases kind : ((site.doc w).node x).kind with
  | element =>
    simp only [kind] at ran
    obtain ⟨_, w₁, first, ran⟩ := bind_eq_ok ran
    have stands : site.Stands prior bound w x := ⟨walked, below, kind⟩
    obtain ⟨stands₁, attaches, isBound, quotes⟩ := stands.bindElement first
    obtain ⟨walked', advances, stays, reached, renders⟩ := deeper stands₁.walked
      (.inr stands₁.below) (fun n text above => waits n text (.inr above)) ran
    refine ⟨walked'.rebind fun n text => ?_, attaches.advances.trans advances, ?_, fun isText => ?_⟩
    · have other : n ≠ x := fun same => by cases kind.symm.trans (isText (same ▸ text))
      simp only [Under, other, false_or]
    · rintro n (rfl | ⟨-, below⟩)
      · refine ⟨fun _ some => ?_, fun path _ only => ?_⟩
        · rw [Node.models_congr stays.attributes] at some
          exact advances.bound n (isBound some)
        · rw [Node.directives_congr stays.attributes] at only
          exact (quotes path only).interprets stays.children renders
      · exact reached n below
    · cases kind.symm.trans isText
  | text =>
    have leaf : ((site.doc w).node x).kind ≠ .element := by simp [kind]
    simp only [kind] at ran
    split at ran
    · obtain ⟨p, above⟩ := below.parent_eq_some
      obtain ⟨walked', attaches, rendered⟩ := walked.bindText (inside_of_parent above) kind
        (fun here => waits x here (.inl rfl)) ran
      refine ⟨walked'.rebind fun n text => ?_, attaches.advances, done_of_leaf ?_, fun isText => ?_⟩
      · rw [walked.under_iff_of_leaf parent leaf text]
      · exact attaches.kind ▸ leaf
      · exact ⟨attaches.kind.trans isText, rendered⟩
    · rename_i noSlot
      obtain ⟨-, rfl⟩ := Prod.mk.inj (Option.some.inj ran)
      refine walked.passed parent leaf (fun here => noSlot ?_) fun _ => Bool.eq_false_iff.mpr noSlot
      rw [walked.holds.waiting x here (waits x here (.inl rfl))]
      exact here.2.2
  | comment =>
    simp only [kind] at ran
    obtain ⟨-, rfl⟩ := Prod.mk.inj (Option.some.inj ran)
    exact walked.passed parent (by simp [kind]) (fun text => by cases kind.symm.trans (isText text))
      fun isText => by cases kind.symm.trans isText
  | fragment =>
    simp only [kind] at ran
    obtain ⟨-, rfl⟩ := Prod.mk.inj (Option.some.inj ran)
    exact walked.passed parent (by simp [kind]) (fun text => by cases kind.symm.trans (isText text))
      fun isText => by cases kind.symm.trans isText

/-- Binding everything below a node binds the texts there that keep their places and the elements
that are reached. -/
theorem descends (levels : Nat) : site.Descends prior perform levels := by
  induction levels with
  | zero =>
    intro bound w w' p _ _ _ ran
    cases ran
  | succ levels ih =>
    intro bound w w' p walked opens waits ran
    rw [View.bindBelow_eq, bind_of_ok
      (show Run.node ⟨site.document, p⟩ w = some (.ok ((site.doc w).node p), w) from rfl)] at ran
    have children : ∀ x ∈ ((site.doc w).node p).children, ((site.doc w).node x).parent = some p :=
      fun x member => (walked.holds.formed.links p x).mp member
    obtain ⟨walked', advances, done⟩ := visitAll_walked (visit_walked ih)
      (walked.holds.formed.distinct p) walked opens children
      (fun x member n text under =>
        waits n text ((walked.above_iff text).mp ⟨x, member, under⟩)) ran
    obtain ⟨-, stays, -⟩ := advances.spares.line walked.holds.topless walked.holds.formed
      walked'.holds.formed opens children
    refine ⟨walked'.rebind fun n text => ?_, ?_, stays, fun n reached => ?_,
      fun x member => (done x member).2⟩
    · rw [walked.above_iff text]
    · exact advances.widen walked.holds.topless fun x member => .inr ⟨p, rfl, children x member⟩
    · have child : ∀ x, ((site.doc w').node x).parent = some p →
          x ∈ ((site.doc w).node p).children := fun x parent => by
        rw [← stays.children, walked'.holds.formed.links]
        exact parent
      rcases reached.first with parent | ⟨x, parent, element, reached⟩
      · exact (done n (child n parent)).1 n (.inl rfl)
      · exact (done x (child x parent)).1 n (.inr ⟨element, reached⟩)

end Site
end ReactiveView
