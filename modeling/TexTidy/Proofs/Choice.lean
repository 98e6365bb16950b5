import TexTidy.Proofs.Ink

/-!
# TexTidy.Proofs.Choice

Rendering is a layout under a choice. A choice says of each `line` and `softLine` of a document whether it
breaks; `layout` writes a document under a choice, in order and without looking at widths. The renderer
looks at widths, at what is pending and at lines that were broken before, but all that this decides is the
choice (`render_eq_layout`).

The choice is not free. Each place where a line may break belongs to a *scope*: the innermost group or part
of a fill around it, or the top of the document. All places of a scope break or none does; at the top and in
a group that holds a line break anyway all of them do.

A choice is seen from the document it is for, so the choice for a part is the choice for the whole behind
one more index. That way the choices for the parts of a document are put together by `Choice.join` without
a condition.
-/

namespace TexTidy.Layout

/-! ## choices -/

/-- The way from a document down to one of its parts: the index of the part at each step. -/
abbrev Place := List Nat

/-- What becomes of each `line` and `softLine` of a document. -/
abbrev Choice := Place → Style

/-- The choice for a document whose part at index `i` has the choice `parts i`. -/
def Choice.join (parts : Nat → Choice) : Choice
  | [] => .broken
  | i :: p => parts i p

/-- What the places where a line may break belong to. -/
inductive Scope where
  /-- The document outside all groups and fills. -/
  | top
  /-- The group at a place, and whether its content holds a line break in any layout. -/
  | group (place : Place) (hard : Bool)
  /-- A part of the fill at a place. -/
  | part (place : Place) (index : Nat)
  deriving DecidableEq, Repr

/-- The scope as it is seen from one step above; `outer` is the scope of what is there. -/
def Scope.under (i : Nat) (outer : Scope) : Scope → Scope
  | .top => outer
  | .group p hard => .group (i :: p) hard
  | .part p j => .part (i :: p) j

theorem Scope.under_top (i : Nat) (outer : Scope) : Scope.under i outer .top = outer := rfl

/-- A `line` or `softLine` of a document. -/
structure Spot where
  place : Place
  scope : Scope
  deriving DecidableEq, Repr

/-- The spot as it is seen from one step above. -/
def Spot.under (i : Nat) (outer : Scope) (s : Spot) : Spot :=
  ⟨i :: s.place, .under i outer s.scope⟩

namespace Doc

mutual

/-- Every `line` and `softLine` of a document, with its scope. -/
def spots : Doc → List Spot
  | .line | .softLine => [⟨[], .top⟩]
  | .empty | .text _ | .hardLine => []
  | .concat parts => spotsFrom (fun _ => .top) 0 parts
  | .indent body => (spots body).map (.under 0 .top)
  | .group body => (spots body).map (.under 0 (.group [] body.hard))
  | .fill parts => spotsFrom (.part []) 0 parts

/-- The spots of the parts of a document from index `i` on. The part at index `j` is in the scope
    `outer j`. -/
def spotsFrom (outer : Nat → Scope) : Nat → List Doc → List Spot
  | _, [] => []
  | i, d :: ds => (spots d).map (.under i (outer i)) ++ spotsFrom outer (i + 1) ds

end

end Doc

/-! ## layouts -/

/-- A text with its last line ended, and the next one indented. -/
def broken (indent : Nat) (out : Bytes) : Bytes :=
  Text.stripEnd isPad out ++ Byte.newline :: Bytes.spaces indent

mutual

/-- Writes a document behind a text under a choice, inside `depth` indentations of `step` columns. -/
def layout (step depth : Nat) (choice : Choice) : Doc → Bytes → Bytes
  | .empty, out => out
  | .text s, out => out ++ s
  | .line, out => if choice [] = .flat then out ++ [Byte.space] else broken (depth * step) out
  | .softLine, out => if choice [] = .flat then out else broken (depth * step) out
  | .hardLine, out => broken (depth * step) out
  | .concat parts, out => layoutAll step depth (fun i p => choice (i :: p)) parts out
  | .indent body, out => layout step (depth + 1) (fun p => choice (0 :: p)) body out
  | .group body, out => layout step depth (fun p => choice (0 :: p)) body out
  | .fill parts, out => layoutAll step depth (fun i p => choice (i :: p)) parts out

/-- Writes documents one after the other, the one at index `i` under `choices i`. -/
def layoutAll (step depth : Nat) (choices : Nat → Choice) : List Doc → Bytes → Bytes
  | [], out => out
  | d :: ds, out =>
    layoutAll step depth (fun i => choices (i + 1)) ds (layout step depth (choices 0) d out)

end

/-! ## uniform choices -/

/-- The choice treats all spots of a scope alike. Those outside all groups and fills get the style `style`,
    and those of a group that holds a line break anyway are broken. -/
structure Choice.Uniform (choice : Choice) (style : Style) (d : Doc) : Prop where
  own : ∀ s ∈ d.spots, s.scope = .top → choice s.place = style
  alike : ∀ s ∈ d.spots, ∀ t ∈ d.spots, s.scope = t.scope → choice s.place = choice t.place
  hard : ∀ s ∈ d.spots, ∀ p, s.scope = .group p true → choice s.place = .broken

/-- The scope is that of a whole document or of one of its parts, and not of something further down. -/
def Scope.IsNear : Scope → Prop
  | .top => True
  | .group p _ => p = []
  | .part p _ => p = []

/-- A scope from further down stays apart from those near a document. -/
theorem Scope.eq_top_of_isNear {i : Nat} {outer scope : Scope}
    (h : (Scope.under i outer scope).IsNear) : scope = .top := by
  cases scope with
  | top => rfl
  | group p hard => cases h
  | part p j => cases h

/-- Two scopes from further down are one only if they come from the same part. -/
theorem Scope.eq_of_under_eq {i j : Nat} {outer outer' scope scope' : Scope} (hscope : scope ≠ .top)
    (hscope' : scope' ≠ .top) (h : Scope.under i outer scope = Scope.under j outer' scope') :
    i = j ∧ scope = scope' := by
  cases scope <;> cases scope' <;> simp_all [Scope.under]

theorem Doc.mem_spotsFrom {outer : Nat → Scope} {i : Nat} {ds : List Doc} {s : Spot}
    (h : s ∈ spotsFrom outer i ds) :
    ∃ (j : Nat) (d : Doc), ds[j]? = some d ∧ ∃ t ∈ d.spots, s = t.under (i + j) (outer (i + j)) := by
  induction ds generalizing i with
  | nil => cases h
  | cons d ds ih =>
    rw [spotsFrom, List.mem_append, List.mem_map] at h
    rcases h with ⟨t, ht, rfl⟩ | h
    · exact ⟨0, d, rfl, t, ht, rfl⟩
    · obtain ⟨j, e, he, t, ht, rfl⟩ := ih h
      refine ⟨j + 1, e, he, t, ht, ?_⟩
      rw [Nat.add_right_comm, Nat.add_assoc]

namespace Choice

variable {style : Style}

/-- A document without places where a line may break suits every choice. -/
theorem uniform_of_spots_eq_nil {d : Doc} (choice : Choice) (h : d.spots = []) :
    choice.Uniform style d := by
  refine ⟨?_, ?_, ?_⟩ <;> simp [h]

/-- A single place has its own style. -/
theorem uniform_const {d : Doc} (h : d.spots = [⟨[], .top⟩]) :
    Uniform (fun _ => style) style d := by
  refine ⟨?_, ?_, ?_⟩ <;> simp [h]

/-- Uniform choices for the parts make a uniform choice for the whole. Here `inner i` is the style that the
    part at index `i` gives to the spots of its scope `outer i`, so parts of one scope have to agree. -/
theorem uniform_join {d : Doc} {parts : List Doc} {choices : Nat → Choice} (outer : Nat → Scope)
    (inner : Nat → Style) (hspots : d.spots = Doc.spotsFrom outer 0 parts)
    (hparts : ∀ i e, parts[i]? = some e → (choices i).Uniform (inner i) e)
    (hnear : ∀ i, (outer i).IsNear) (hsame : ∀ i j, outer i = outer j → inner i = inner j)
    (htop : ∀ i, outer i = .top → inner i = style)
    (hhard : ∀ i p, outer i = .group p true → inner i = .broken) :
    (join choices).Uniform style d := by
  have hfrom : ∀ s ∈ d.spots, ∃ (i : Nat) (e : Doc), parts[i]? = some e ∧
      ∃ t ∈ e.spots, s = t.under i (outer i) := by
    intro s hs
    rw [hspots] at hs
    simpa using Doc.mem_spotsFrom hs
  refine ⟨?_, ?_, ?_⟩
  · intro s hs hscope
    obtain ⟨i, e, he, t, ht, rfl⟩ := hfrom s hs
    simp only [Spot.under] at hscope
    have hnear' : (Scope.under i (outer i) t.scope).IsNear := by simp [hscope, Scope.IsNear]
    have htscope := Scope.eq_top_of_isNear hnear'
    rw [htscope] at hscope
    exact ((hparts i e he).own t ht htscope).trans (htop i hscope)
  · intro s hs s' hs' hscope
    obtain ⟨i, e, he, t, ht, rfl⟩ := hfrom s hs
    obtain ⟨j, e', he', t', ht', rfl⟩ := hfrom s' hs'
    simp only [Spot.under] at hscope
    -- A spot of an outer scope and one from further down are never of the same scope.
    have hboth : t.scope = .top ↔ t'.scope = .top := by
      constructor
      · intro htscope
        rw [htscope, Scope.under_top] at hscope
        exact Scope.eq_top_of_isNear (hscope ▸ hnear i)
      · intro htscope'
        rw [htscope', Scope.under_top] at hscope
        exact Scope.eq_top_of_isNear (hscope ▸ hnear j)
    by_cases htscope : t.scope = .top
    · have htscope' := hboth.1 htscope
      rw [htscope, htscope'] at hscope
      calc choices i t.place = inner i := (hparts i e he).own t ht htscope
        _ = inner j := hsame i j hscope
        _ = choices j t'.place := ((hparts j e' he').own t' ht' htscope').symm
    · obtain ⟨rfl, heq⟩ := Scope.eq_of_under_eq htscope (mt hboth.2 htscope) hscope
      cases he.symm.trans he'
      exact (hparts i e he).alike t ht t' ht' heq
  · intro s hs p hscope
    obtain ⟨i, e, he, t, ht, rfl⟩ := hfrom s hs
    simp only [Spot.under] at hscope
    cases htscope : t.scope with
    | top =>
      rw [htscope] at hscope
      exact ((hparts i e he).own t ht htscope).trans (hhard i p hscope)
    | group q hard =>
      rw [htscope] at hscope
      cases hscope
      exact (hparts i e he).hard t ht q htscope
    | part q j =>
      rw [htscope] at hscope
      cases hscope

theorem uniform_concat {parts : List Doc} {choices : Nat → Choice}
    (h : ∀ i d, parts[i]? = some d → (choices i).Uniform style d) :
    (join choices).Uniform style (.concat parts) :=
  uniform_join (fun _ => .top) (fun _ => style) rfl h (fun _ => trivial) (fun _ _ _ => rfl)
    (fun _ _ => rfl) (by simp)

theorem uniform_fill {parts : List Doc} {choices : Nat → Choice} {inner : Nat → Style}
    (h : ∀ i d, parts[i]? = some d → (choices i).Uniform (inner i) d) :
    (join choices).Uniform style (.fill parts) :=
  uniform_join (.part []) inner rfl h (fun _ => rfl) (by simp) (by simp) (by simp)

/-- A uniform choice for the only part of a document. -/
theorem forall_singleton {body : Doc} {choice : Choice} (h : choice.Uniform style body) :
    ∀ (i : Nat) (e : Doc), [body][i]? = some e → choice.Uniform style e := by
  intro i e he
  cases List.mem_singleton.1 (List.mem_of_getElem? he)
  exact h

theorem uniform_indent {body : Doc} {choice : Choice} (h : choice.Uniform style body) :
    (join fun _ => choice).Uniform style (.indent body) :=
  uniform_join (fun _ => .top) (fun _ => style) (List.append_nil _).symm (forall_singleton h)
    (fun _ => trivial) (fun _ _ _ => rfl) (fun _ _ => rfl) (by simp)

theorem uniform_group {body : Doc} {choice : Choice} {inner : Style} (h : choice.Uniform inner body)
    (hhard : body.hard = true → inner = .broken) :
    (join fun _ => choice).Uniform style (.group body) :=
  uniform_join (fun _ => .group [] body.hard) (fun _ => inner) (List.append_nil _).symm
    (forall_singleton h) (fun _ => rfl) (fun _ _ _ => rfl) (by simp) (by simpa using hhard)

end Choice

/-! ## rendering -/

namespace Sheet

/-- What is written on a sheet, from its first byte on. -/
def text (sheet : Sheet) : Bytes :=
  sheet.written.reverse

@[simp] theorem text_write (measure : Bytes → Nat) (s : Bytes) (sheet : Sheet) :
    (sheet.write measure s).text = sheet.text ++ s := by
  simp [text, write]

@[simp] theorem text_writeSpace (sheet : Sheet) :
    sheet.writeSpace.text = sheet.text ++ [Byte.space] := by
  simp [text, writeSpace]

@[simp] theorem text_breakLine (indent : Nat) (sheet : Sheet) :
    (sheet.breakLine indent).text = broken indent sheet.text := by
  simp [text, breakLine, broken, Text.stripEnd, Bytes.spaces]

/-- Whether a line was broken inside a flat part does not show. -/
@[simp] theorem text_brokenFlat (sheet : Sheet) (broken : Bool) :
    ({ sheet with brokenFlat := broken } : Sheet).text = sheet.text := rfl

end Sheet

namespace Page

variable (page : Page)

/-- The sheet `after` holds what a uniform choice writes behind the sheet `before`. -/
def Lays (depth : Nat) (style : Style) (d : Doc) (before after : Sheet) : Prop :=
  ∃ choice : Choice, after.text = layout page.step depth choice d before.text ∧ choice.Uniform style d

/-- The same for documents one after the other, where the one at index `i` has the style `styles i`. -/
def LaysAll (depth : Nat) (styles : Nat → Style) (ds : List Doc) (before after : Sheet) : Prop :=
  ∃ choices : Nat → Choice, after.text = layoutAll page.step depth choices ds before.text ∧
    ∀ i d, ds[i]? = some d → (choices i).Uniform (styles i) d

variable {page} {depth : Nat} {style : Style}

theorem laysAll_nil (styles : Nat → Style) (sheet : Sheet) : page.LaysAll depth styles [] sheet sheet :=
  ⟨fun _ _ => .broken, rfl, by simp⟩

theorem laysAll_cons {styles : Nat → Style} {d : Doc} {ds : List Doc} {a b c : Sheet}
    (hd : page.Lays depth (styles 0) d a b) (hds : page.LaysAll depth (fun i => styles (i + 1)) ds b c) :
    page.LaysAll depth styles (d :: ds) a c := by
  obtain ⟨choice, htext, hd⟩ := hd
  obtain ⟨choices, htexts, hds⟩ := hds
  refine ⟨fun | 0 => choice | i + 1 => choices i, ?_, ?_⟩
  · rw [layoutAll, ← htext]
    exact htexts
  · intro i e he
    cases i with
    | zero =>
      cases he
      exact hd
    | succ i => exact hds i e he

theorem lays_concat {parts : List Doc} {a b : Sheet}
    (h : page.LaysAll depth (fun _ => style) parts a b) : page.Lays depth style (.concat parts) a b := by
  obtain ⟨choices, htext, h⟩ := h
  refine ⟨.join choices, ?_, Choice.uniform_concat h⟩
  rw [layout]
  exact htext

theorem lays_fill {styles : Nat → Style} {parts : List Doc} {a b : Sheet}
    (h : page.LaysAll depth styles parts a b) : page.Lays depth style (.fill parts) a b := by
  obtain ⟨choices, htext, h⟩ := h
  refine ⟨.join choices, ?_, Choice.uniform_fill h⟩
  rw [layout]
  exact htext

theorem lays_indent {body : Doc} {a b : Sheet} (h : page.Lays (depth + 1) style body a b) :
    page.Lays depth style (.indent body) a b := by
  obtain ⟨choice, htext, h⟩ := h
  refine ⟨.join fun _ => choice, ?_, Choice.uniform_indent h⟩
  rw [layout]
  exact htext

theorem lays_group {inner : Style} {body : Doc} {a b : Sheet} (h : page.Lays depth inner body a b)
    (hhard : body.hard = true → inner = .broken) : page.Lays depth style (.group body) a b := by
  obtain ⟨choice, htext, h⟩ := h
  refine ⟨.join fun _ => choice, ?_, Choice.uniform_group h hhard⟩
  rw [layout]
  exact htext

/-- A group that holds a line break is never flat. -/
theorem styleOf_hard {hard : Bool} (fits : Bool) (h : hard = true) : styleOf (!hard && fits) = .broken := by
  rw [h]
  rfl

variable (page)

mutual

/-- **Rendering a document is writing it under a uniform choice**, whatever is pending after it. -/
theorem lays_renderDoc (depth : Nat) (style : Style) (pending : Pending) :
    ∀ (d : Doc) (sheet : Sheet),
      page.Lays depth style d sheet (page.renderDoc (depth * page.step) style pending d sheet)
  | .empty, sheet => ⟨fun _ => style, rfl, Choice.uniform_of_spots_eq_nil _ rfl⟩
  | .text s, sheet =>
    ⟨fun _ => style, by simp [renderDoc, layout], Choice.uniform_of_spots_eq_nil _ rfl⟩
  | .line, sheet => by
    refine ⟨fun _ => style, ?_, Choice.uniform_const rfl⟩
    rw [renderDoc, layout]
    split <;> simp
  | .softLine, sheet => by
    refine ⟨fun _ => style, ?_, Choice.uniform_const rfl⟩
    rw [renderDoc, layout]
    split <;> simp
  | .hardLine, sheet => by
    refine ⟨fun _ => style, ?_, Choice.uniform_of_spots_eq_nil _ rfl⟩
    rw [renderDoc, layout, Sheet.text_breakLine]
    split <;> simp
  | .concat parts, sheet => by
    rw [renderDoc]
    exact lays_concat (laysAll_renderAll depth style pending parts sheet)
  | .indent body, sheet => by
    have hbody := lays_renderDoc (depth + 1) style pending body sheet
    rw [Nat.succ_mul] at hbody
    exact lays_indent hbody
  | .group body, sheet => by
    rw [renderDoc]
    split
    · refine lays_group (lays_renderDoc depth _ pending body sheet) fun hhard => ?_
      simpa using styleOf_hard true hhard
    · exact lays_group (lays_renderDoc depth _ pending body { sheet with brokenFlat := false })
        (styleOf_hard _)
  | .fill parts, sheet => by
    obtain ⟨styles, hparts⟩ := laysAll_renderFill depth style pending parts sheet
    exact lays_fill hparts

theorem laysAll_renderAll (depth : Nat) (style : Style) (pending : Pending) :
    ∀ (ds : List Doc) (sheet : Sheet), page.LaysAll depth (fun _ => style) ds sheet
      (page.renderAll (depth * page.step) style pending ds sheet)
  | [], sheet => laysAll_nil _ sheet
  | d :: ds, sheet => by
    rw [renderAll]
    exact laysAll_cons (lays_renderDoc depth style _ d sheet)
      (laysAll_renderAll depth style pending ds _)

/-- Each part of a fill gets a style of its own. -/
theorem laysAll_renderFill (depth : Nat) (style : Style) (pending : Pending) :
    ∀ (ds : List Doc) (sheet : Sheet), ∃ styles, page.LaysAll depth styles ds sheet
      (page.renderFill (depth * page.step) style pending ds sheet)
  | [], sheet => ⟨fun _ => style, laysAll_nil _ sheet⟩
  | [content], sheet => by
    rw [renderFill]
    exact ⟨fun _ => _, laysAll_cons (lays_renderDoc depth _ pending content sheet) (laysAll_nil _ _)⟩
  | [content, sep], sheet => by
    rw [renderFill]
    exact ⟨fun _ => _, laysAll_cons (lays_renderDoc depth _ _ content sheet)
      (laysAll_cons (lays_renderDoc depth _ pending sep _) (laysAll_nil _ _))⟩
  | content :: sep :: next :: more, sheet => by
    rw [renderFill]
    generalize styleOf (_ || _) = contentStyle
    generalize styleOf _ = sepStyle
    obtain ⟨styles, hrest⟩ := laysAll_renderFill depth style pending (next :: more)
      (page.renderDoc (depth * page.step) sepStyle ((style, next :: more) :: pending) sep
        (page.renderDoc (depth * page.step) contentStyle
          ((sepStyle, [sep]) :: (style, next :: more) :: pending) content sheet))
    refine ⟨fun | 0 => contentStyle | 1 => sepStyle | i + 2 => styles i, ?_⟩
    exact laysAll_cons (lays_renderDoc depth contentStyle _ content sheet)
      (laysAll_cons (lays_renderDoc depth sepStyle _ sep _) hrest)

end

end Page

end TexTidy.Layout
