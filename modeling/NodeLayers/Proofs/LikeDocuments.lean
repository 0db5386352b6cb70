import NodeLayers.Proofs.LikeReadings

namespace NodeLayers

variable {r : Token → Token → Prop} {l : Location → Location → Prop}

structure Block.Like (r : Token → Token → Prop) (b b' : Block) : Prop where
  keys : List.Forall₂ r b.keys b'.keys
  segments : List.Forall₂ (List.Forall₂ r) b.segments b'.segments

theorem isEmpty_of_forall₂ {α β : Type} {v : α → β → Prop} {xs : List α} {ys : List β}
    (h : List.Forall₂ v xs ys) : xs.isEmpty = ys.isEmpty := by
  cases h <;> rfl

theorem forall₂_filter {α β : Type} {v : α → β → Prop} {xs : List α} {ys : List β}
    (h : List.Forall₂ v xs ys) {p : α → Bool} {q : β → Bool} (hpq : ∀ a b, v a b → p a = q b) :
    List.Forall₂ v (xs.filter p) (ys.filter q) :=
  List.rel_filter (fun a b hv => by simp only [hpq a b hv]) h

theorem Block.Like.isGlobal {b b' : Block} (h : b.Like r b') : b.isGlobal = b'.isGlobal :=
  isEmpty_of_forall₂ h.keys

variable (same : Alike r l)

namespace Cursor

variable {c c' d d' : Cursor}

include same

theorem Follows.blockKeys (h : Follows r c c') :
    Agree l (fun x y => List.Forall₂ r x.1 y.1 ∧ Follows r x.2 y.2) c.blockKeys c'.blockKeys := by
  unfold Cursor.blockKeys
  rw [← h.atOpen same]
  split
  next => exact .ok ⟨.nil, h⟩
  next =>
    obtain ⟨hargs, hlast⟩ := h.args same
    simp only [← hlast.opensBlock same]
    split
    next => exact .ok ⟨List.rel_append (forall₂_toList h.current?) hargs, hlast.nextD⟩
    next => exact .error (hlast.fail same _)

theorem Behind.blockSegments (h : Behind r c c') {opening opening' : Location}
    (ho : l opening opening') :
    Agree l (fun x y => List.Forall₂ (List.Forall₂ r) x.1 y.1 ∧ Follows r x.2 y.2)
      (c.blockSegments opening) (c'.blockSegments opening') := by
  fun_induction Cursor.blockSegments c opening generalizing c' with
  | case1 c hn =>
    rw [blockSegments_of_none (h.next?_none hn)]
    exact .error ⟨ho, rfl⟩
  | case2 c d hn hclose =>
    obtain ⟨d', hd', hf⟩ := h.next?_some hn
    rw [hf.atClose same] at hclose
    rw [blockSegments_of_close hd' hclose]
    exact .ok ⟨.nil, hf⟩
  | case3 c d hn hclose hopen =>
    obtain ⟨d', hd', hf⟩ := h.next?_some hn
    rw [hf.atClose same, Bool.not_eq_true] at hclose
    rw [hf.atOpen same] at hopen
    rw [blockSegments_of_open hd' hclose hopen]
    exact .error (hf.fail same _)
  | case4 c d hn hclose hopen hnesting =>
    obtain ⟨d', hd', hf⟩ := h.next?_some hn
    rw [hf.atClose same, Bool.not_eq_true] at hclose
    rw [hf.atOpen same, Bool.not_eq_true] at hopen
    rw [(hf.segment same).2.nesting] at hnesting
    rw [blockSegments_of_unclosed hd' hclose hopen hnesting]
    exact .error ⟨ho, rfl⟩
  | case5 c d hn hclose hopen hnesting _ _ e hrest ih =>
    obtain ⟨d', hd', hf⟩ := h.next?_some hn
    obtain ⟨hsegment, hlast⟩ := hf.segment same
    rw [hf.atClose same, Bool.not_eq_true] at hclose
    rw [hf.atOpen same, Bool.not_eq_true] at hopen
    rw [hlast.nesting, Nat.not_lt, Nat.le_zero] at hnesting
    obtain ⟨e', hrest', he⟩ := (ih hlast.toBehind).of_error hrest
    rw [blockSegments_of_segment hd' hclose hopen hnesting, hrest']
    exact .error he
  | case6 c d hn hclose hopen hnesting _ _ segments e hrest ih =>
    obtain ⟨d', hd', hf⟩ := h.next?_some hn
    obtain ⟨hsegment, hlast⟩ := hf.segment same
    rw [hf.atClose same, Bool.not_eq_true] at hclose
    rw [hf.atOpen same, Bool.not_eq_true] at hopen
    rw [hlast.nesting, Nat.not_lt, Nat.le_zero] at hnesting
    obtain ⟨⟨segments', e'⟩, hrest', hsegments, hend⟩ := (ih hlast.toBehind).of_ok hrest
    rw [blockSegments_of_segment hd' hclose hopen hnesting, hrest']
    exact .ok ⟨.cons hsegment hsegments, hend⟩

theorem Behind.blocks (h : Behind r c c') (first : Bool) :
    Agree l (List.Forall₂ (Block.Like r)) (c.blocks first) (c'.blocks first) := by
  fun_induction Cursor.blocks c first generalizing c' with
  | case1 c first hn =>
    rw [blocks_of_none (h.next?_none hn)]
    exact .ok .nil
  | case2 c first d hn e hkeys =>
    obtain ⟨d', hd', hf⟩ := h.next?_some hn
    obtain ⟨e', hkeys', he⟩ := (hf.blockKeys same).of_error hkeys
    rw [blocks_of_keys_error hd' hkeys']
    exact .error he
  | case3 c first d hn keys brace hkeys hlate =>
    obtain ⟨d', hd', hf⟩ := h.next?_some hn
    obtain ⟨⟨keys', brace'⟩, hkeys', hk, hbrace⟩ := (hf.blockKeys same).of_ok hkeys
    rw [isEmpty_of_forall₂ hk] at hlate
    rw [blocks_of_late hd' hkeys' hlate]
    exact .error (hbrace.fail same _)
  | case4 c first d hn keys brace hkeys hlate e hsegments =>
    obtain ⟨d', hd', hf⟩ := h.next?_some hn
    obtain ⟨⟨keys', brace'⟩, hkeys', hk, hbrace⟩ := (hf.blockKeys same).of_ok hkeys
    rw [isEmpty_of_forall₂ hk, Bool.not_eq_true] at hlate
    have hblock := hbrace.toBehind.blockSegments same (hbrace.location same)
    obtain ⟨e', hsegments', he⟩ := hblock.of_error hsegments
    rw [blocks_of_segments_error hd' hkeys' hlate hsegments']
    exact .error he
  | case5 c first d hn keys brace hkeys hlate segments last hsegments _ _ _ e hrest ih =>
    obtain ⟨d', hd', hf⟩ := h.next?_some hn
    obtain ⟨⟨keys', brace'⟩, hkeys', hk, hbrace⟩ := (hf.blockKeys same).of_ok hkeys
    rw [isEmpty_of_forall₂ hk, Bool.not_eq_true] at hlate
    have hblock := hbrace.toBehind.blockSegments same (hbrace.location same)
    obtain ⟨⟨segments', last'⟩, hsegments', hs, hlast⟩ := hblock.of_ok hsegments
    obtain ⟨e', hrest', he⟩ := (ih hlast.toBehind).of_error hrest
    rw [blocks_of_block hd' hkeys' hlate hsegments', hrest']
    exact .error he
  | case6 c first d hn keys brace hkeys hlate segments last hsegments _ _ _ rest hrest ih =>
    obtain ⟨d', hd', hf⟩ := h.next?_some hn
    obtain ⟨⟨keys', brace'⟩, hkeys', hk, hbrace⟩ := (hf.blockKeys same).of_ok hkeys
    rw [isEmpty_of_forall₂ hk, Bool.not_eq_true] at hlate
    have hblock := hbrace.toBehind.blockSegments same (hbrace.location same)
    obtain ⟨⟨segments', last'⟩, hsegments', hs, hlast⟩ := hblock.of_ok hsegments
    obtain ⟨rest', hrest', hr⟩ := (ih hlast.toBehind).of_ok hrest
    rw [blocks_of_block hd' hkeys' hlate hsegments', hrest']
    exact .ok (.cons ⟨hk, hs⟩ hr)

end Cursor

include same

theorem Alike.isNamed {s s' : Segment} (h : List.Forall₂ r s s') (name : String) :
    s.isNamed name = s'.isNamed name := by
  cases h with
  | nil => rfl
  | cons hr _ => simp [Segment.isNamed, same.text hr]

theorem Block.Like.named {b b' : Block} (h : b.Like r b') (name : String) :
    List.Forall₂ (List.Forall₂ r) (b.named name) (b'.named name) :=
  forall₂_filter h.segments fun _ _ hs => same.isNamed hs name

/-- Directives that a reader of tokens cannot tell apart. -/
def Segment.SameTokens (l : Location → Location → Prop) (s s' : Segment) : Prop :=
  ∃ r, Alike r l ∧ List.Forall₂ r s s'

/-- Blocks that say the same: only the directives that are read have to be alike. -/
structure Block.SaysSame (l : Location → Location → Prop) (b b' : Block) : Prop where
  isGlobal : b.isGlobal = b'.isGlobal
  options : List.Forall₂ (Segment.SameTokens l) (b.named App.name) (b'.named App.name)
  directives :
    List.Forall₂ (Segment.SameTokens l) (b.named Directive.name) (b'.named Directive.name)

theorem Block.Like.saysSame {b b' : Block} (h : b.Like r b') : b.SaysSame l b' := by
  have hnamed : ∀ name, List.Forall₂ (Segment.SameTokens l) (b.named name) (b'.named name) :=
    fun name => (h.named same name).imp fun _ _ hs => ⟨r, same, hs⟩
  exact ⟨h.isGlobal, hnamed _, hnamed _⟩

omit same in
theorem Configuration.agree_readApp {ss ss' : List Segment}
    (h : List.Forall₂ (Segment.SameTokens l) ss ss') : Agree l Eq (readApp ss) (readApp ss') := by
  cases h with
  | nil => exact .ok rfl
  | cons hs hrest =>
    obtain ⟨_, same, hs⟩ := hs
    have hfirst := (App.sameReading same (Cursor.follows_ofTokens hs)).result
    cases hrest with
    | nil => exact hfirst
    | cons hagain _ =>
      obtain ⟨_, same', hagain⟩ := hagain
      have hname := (Cursor.follows_ofTokens hagain).nextD
      exact hfirst.bind fun _ _ _ => .error (hname.fail same' _)

omit same in
theorem agree_mapM {α β γ : Type} {v : α → β → Prop} {xs : List α} {ys : List β}
    (h : List.Forall₂ v xs ys) {f : α → Except ParseError γ} {g : β → Except ParseError γ}
    (hfg : ∀ a b, v a b → Agree l Eq (f a) (g b)) : Agree l Eq (xs.mapM f) (ys.mapM g) := by
  induction h with
  | nil => exact .ok rfl
  | cons hv _ ih =>
    rw [List.mapM_cons, List.mapM_cons]
    refine (hfg _ _ hv).bind fun a b hab => ?_
    refine ih.bind fun as bs habs => ?_
    rw [hab, habs]
    exact .ok rfl

omit same in
theorem Configuration.agree_directives {ss ss' : List Segment}
    (h : List.Forall₂ (Segment.SameTokens l) ss ss') :
    Agree l Eq (ss.mapM fun s => (Directive.read ∅ (.ofTokens s)).1)
      (ss'.mapM fun s => (Directive.read ∅ (.ofTokens s)).1) := by
  refine agree_mapM h fun s s' hs => ?_
  obtain ⟨_, same, hs⟩ := hs
  exact (Directive.sameReading same ∅ (Cursor.follows_ofTokens hs)).result

omit same in
/-- Documents whose blocks say the same say the same, or have the same first fault. -/
theorem Configuration.agree_ofDocument {d d' : Document}
    (h : List.Forall₂ (Block.SaysSame l) d d') : Agree l Eq (ofDocument d) (ofDocument d') := by
  have hglobal := forall₂_filter h fun _ _ hb => hb.isGlobal
  have hsites : List.Forall₂ (Block.SaysSame l) (d.filter (!·.isGlobal))
      (d'.filter (!·.isGlobal)) :=
    forall₂_filter h fun _ _ hb => congrArg (!·) hb.isGlobal
  have happ := agree_readApp (List.rel_flatMap hglobal fun _ _ hb => hb.options)
  have hdirectives := agree_directives (List.rel_flatMap hsites fun _ _ hb => hb.directives)
  unfold ofDocument
  refine happ.bind fun a b hab => ?_
  refine hdirectives.bind fun as bs habs => ?_
  rw [hab, habs]
  exact .ok rfl

/-- Tokens alike are read as the same configuration, or the same fault is found in them. -/
theorem Configuration.agree_ofTokens {ts us : List Token} (h : List.Forall₂ r ts us) :
    Agree l Eq (Document.ofTokens ts >>= ofDocument) (Document.ofTokens us >>= ofDocument) :=
  ((Cursor.follows_ofTokens h).toBehind.blocks same true).bind fun _ _ hd =>
    agree_ofDocument (hd.imp fun _ _ hb => hb.saysSame same)

/-- Texts with tokens alike say the same, or the same fault is found in them. -/
theorem Configuration.agree_ofText {source source' : Source} {text text' : String}
    {ts us : List Token} (ht : tokenize source text = .ok ts)
    (hu : tokenize source' text' = .ok us) (h : List.Forall₂ r ts us) :
    Agree l Eq (ofText source text) (ofText source' text') := by
  rw [ofText, ofText, ht, hu]
  exact agree_ofTokens same h

end NodeLayers
