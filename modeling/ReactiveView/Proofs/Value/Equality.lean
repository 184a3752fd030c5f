import ReactiveView.Value.Basic

/-! Equality of data as change detection sees it. -/
namespace ReactiveView.Value

/-- Equal values are of one kind. -/
theorem kind_of_strictEq {v w : Value} (same : v.strictEq w = true) :
    v = w ∨ (∃ x y, v = .number x ∧ w = .number y ∧ x.sameValue y = true) ∨
      (∃ xs ys, v = .array xs ∧ w = .array ys ∧ strictEqItems xs ys = true) ∨
      ∃ fs gs, v = .object fs ∧ w = .object gs ∧ strictEqFields fs gs = true := by
  cases v <;> cases w <;> simp_all [strictEq]

mutual

@[simp] theorem strictEq_self : ∀ v : Value, v.strictEq v = true
  | .null => by simp [strictEq]
  | .bool _ => by simp [strictEq]
  | .number x => by simp [strictEq, Number.sameValue, Binary64.sameValue]
  | .string _ => by simp [strictEq]
  | .array items => by simpa only [strictEq] using strictEqItems_self items
  | .object fields => by simpa only [strictEq] using strictEqFields_self fields

theorem strictEqItems_self : ∀ items : List Value, strictEqItems items items = true
  | [] => by simp [strictEqItems]
  | v :: rest => by simp [strictEqItems, strictEq_self v, strictEqItems_self rest]

theorem strictEqFields_self : ∀ fields : List (String × Value), strictEqFields fields fields = true
  | [] => by simp [strictEqFields]
  | (_, v) :: rest => by simp [strictEqFields, strictEq_self v, strictEqFields_self rest]

end

mutual

/-- Neither side of a comparison is privileged. -/
theorem strictEq_comm : ∀ v w : Value, v.strictEq w = w.strictEq v
  | .null, w => by cases w <;> simp [strictEq]
  | .bool _, w => by cases w <;> simp [strictEq, BEq.comm]
  | .number _, w => by cases w <;> simp [strictEq, Number.sameValue, Binary64.sameValue, BEq.comm]
  | .string _, w => by cases w <;> simp [strictEq, BEq.comm]
  | .array xs, w => by
    cases w with
    | array ys => simpa only [strictEq] using strictEqItems_comm xs ys
    | _ => simp [strictEq]
  | .object fs, w => by
    cases w with
    | object gs => simpa only [strictEq] using strictEqFields_comm fs gs
    | _ => simp [strictEq]

theorem strictEqItems_comm : ∀ xs ys : List Value, strictEqItems xs ys = strictEqItems ys xs
  | [], ys => by cases ys <;> simp [strictEqItems]
  | x :: xs, ys => by
    cases ys with
    | nil => simp [strictEqItems]
    | cons y ys => simp only [strictEqItems, strictEq_comm x y, strictEqItems_comm xs ys]

theorem strictEqFields_comm :
    ∀ fs gs : List (String × Value), strictEqFields fs gs = strictEqFields gs fs
  | [], gs => by cases gs <;> simp [strictEqFields]
  | (k, x) :: fs, gs => by
    cases gs with
    | nil => simp [strictEqFields]
    | cons g gs =>
      simp only [strictEqFields, strictEq_comm x g.2, strictEqFields_comm fs gs,
        BEq.comm]

end

mutual

theorem strictEq_trans (u v w : Value) (first : u.strictEq v = true)
    (second : v.strictEq w = true) : u.strictEq w = true := by
  obtain rfl | ⟨x, y, rfl, rfl, first⟩ | ⟨xs, ys, rfl, rfl, first⟩ | ⟨fs, gs, rfl, rfl, first⟩ :=
    kind_of_strictEq first
  · exact second
  · cases w with
    | number z =>
      simp only [strictEq, Number.sameValue, Binary64.sameValue, beq_iff_eq] at first second ⊢
      exact first.trans second
    | _ => simp [strictEq] at second
  · cases w with
    | array zs =>
      simp only [strictEq] at second ⊢
      exact strictEqItems_trans xs ys zs first second
    | _ => simp [strictEq] at second
  · cases w with
    | object hs =>
      simp only [strictEq] at second ⊢
      exact strictEqFields_trans fs gs hs first second
    | _ => simp [strictEq] at second

theorem strictEqItems_trans : ∀ xs ys zs : List Value, strictEqItems xs ys = true →
    strictEqItems ys zs = true → strictEqItems xs zs = true
  | [], [], _, _, second => second
  | x :: xs, y :: ys, [], _, second => by simp [strictEqItems] at second
  | x :: xs, y :: ys, z :: zs, first, second => by
    simp only [strictEqItems, Bool.and_eq_true] at first second ⊢
    exact ⟨strictEq_trans x y z first.1 second.1, strictEqItems_trans xs ys zs first.2 second.2⟩

theorem strictEqFields_trans : ∀ fs gs hs : List (String × Value), strictEqFields fs gs = true →
    strictEqFields gs hs = true → strictEqFields fs hs = true
  | [], [], _, _, second => second
  | (k, x) :: fs, (l, y) :: gs, [], _, second => by simp [strictEqFields] at second
  | (k, x) :: fs, (l, y) :: gs, (m, z) :: hs, first, second => by
    simp only [strictEqFields, Bool.and_eq_true, beq_iff_eq] at first second ⊢
    exact ⟨⟨first.1.1.trans second.1.1, strictEq_trans x y z first.1.2 second.1.2⟩,
      strictEqFields_trans fs gs hs first.2 second.2⟩

end

end ReactiveView.Value
