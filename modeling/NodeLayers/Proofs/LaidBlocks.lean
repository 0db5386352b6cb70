import NodeLayers.Proofs.OptionLines
import NodeLayers.Proofs.ReadDirective

namespace NodeLayers

section

variable {name brace last : Token} {settings : List Setting} {lines : List (List Token)}
  {rest passed : List Token} {n : Nat}

theorem OptionBlock.spelled {t : Token} {args : List Token}
    (h : OptionBlock settings brace lines last) (header : Header t args)
    (hline : OneLine (t :: (args ++ [brace]))) :
    Segment.Spelled (t :: args ++ keptBlock brace lines.flatten last)
      (t :: args ++ brace :: lines.flatten ++ [last]) :=
  spelled_of_whole header hline h.opens h.closes (whole_of_plain h.plain)
    fun u hu => h.plain u (List.mem_of_mem_head? hu)

/-- A node is read from the options of its own block. -/
theorem Node.read_eq {c : Cursor} {t : Token} {block : List Token} (h : c.current? = some t)
    (hb : c.opensBlock = true) (hs : c.segment.1 = t :: block) :
    Node.read c = ((readOptions (∅ : Settings) ⟨[t], block, 0⟩).result.map (⟨t.text, ·⟩),
      c.segment.2) := by
  have htext : c.text = t.text := by rw [Cursor.text, h]; rfl
  have hinside : Cursor.next? (.ofTokens (t :: block)) = some ⟨[t], block, 0⟩ := rfl
  rw [Node.read, if_pos hb]
  simp only [Cursor.enterSegment, hs, hinside, Option.getD_some, htext]
  cases hf : (readOptions (∅ : Settings) ⟨[t], block, 0⟩).failure with
  | none => rw [Filling.result_of_none hf]; rfl
  | some e => rw [Filling.result_of_some hf]; rfl

/-- A node is read from its block, whatever stands behind. -/
theorem Node.read_of_spelled {body : List Token}
    (h : Segment.Spelled (name :: keptBlock brace body last) (name :: (brace :: body ++ [last])))
    (hb : brace.opens = true) (hs : name.sharesLine brace = true) :
    Node.read ⟨name :: passed, (brace :: body ++ [last]) ++ rest, n⟩ =
      ((readOptions (∅ : Settings) ⟨[name], keptBlock brace body last, 0⟩).result.map
          (⟨name.text, ·⟩),
        ⟨(brace :: body ++ [last]).reverse ++ name :: passed, rest, n⟩) := by
  have hsegment : Cursor.segment ⟨name :: passed, (brace :: body ++ [last]) ++ rest, n⟩ =
      (name :: keptBlock brace body last,
        ⟨(brace :: body ++ [last]).reverse ++ name :: passed, rest, n⟩) := by
    refine Cursor.segment_of_spelled h fun hplain => ?_
    rw [hplain brace (List.mem_cons_of_mem name List.mem_cons_self)] at hb
    cases hb
  have hopens : Cursor.opensBlock
      ⟨name :: passed, (brace :: body ++ [last]) ++ rest, n⟩ = true := by
    rw [List.cons_append, List.cons_append, Cursor.opensBlock_cons, hb, hs]
    rfl
  rw [Node.read_eq rfl hopens (congrArg Prod.fst hsegment), hsegment]

theorem Node.read_of_block (h : OptionBlock settings brace lines last)
    (hc : name.closes = false) (ho : name.opens = false) (hs : name.sharesLine brace = true) :
    Node.read ⟨name :: passed, (brace :: lines.flatten ++ [last]) ++ rest, n⟩ =
      (.ok ⟨name.text, settings.foldl Settings.set ∅⟩,
        ⟨(brace :: lines.flatten ++ [last]).reverse ++ name :: passed, rest, n⟩) := by
  have header : Header name [] := ⟨hc, ho, by simp, List.IsChain.singleton name⟩
  have hspelled := h.spelled header (oneLine_pair.mpr hs)
  obtain ⟨before, hread⟩ := readOptions_keptBlock h (fun _ _ _ => rfl) hs (∅ : Settings) []
  rw [Node.read_of_spelled hspelled h.opens hs, hread]
  rfl

end

namespace App

/-- Whatever is no keyword of the global option can name a node in it. -/
theorem keyword?_eq_none {s : String}
    (h : s ∉ ["auth_key", "control_url", "ephemeral", "state_dir", "webui", "tags"]) (a : App) :
    OptionRecord.keyword? a s = none := by
  rw [OptionRecord.keyword?, Option.filter_eq_none_iff]
  intro k hk htakes
  rw [Keyword.ofText?_eq_some] at hk
  subst hk
  cases k with
  | hostname => cases htakes
  | port => cases htakes
  | _ => exact h (by simp [Keyword.text])

inductive Entry
  | setting (s : Setting)
  | node (node : Node)

def put (a : App) : Entry → App
  | .setting s => a.set s
  | .node node => a.putNode node

/-- The tokens of an entry: an option on its line, or a node's block. -/
inductive Entry.Spelled : Entry → List Token → Prop
  | setting {s line} : s.OnLine line → (∀ a : App, a.takes s.keyword = true) →
      Spelled (.setting s) line
  | node {name brace last settings lines} : name.closes = false → name.opens = false →
      name.sharesLine brace = true → (∀ a : App, OptionRecord.keyword? a name.text = none) →
      OptionBlock settings brace lines last →
      Spelled (.node ⟨name.text, settings.foldl Settings.set ∅⟩)
        (name :: (brace :: lines.flatten ++ [last]))

theorem Entry.Spelled.eq_cons {e : Entry} {ts : List Token} (h : e.Spelled ts) :
    ∃ t used, ts = t :: used ∧ t.closes = false ∧ t.opens = false := by
  cases h with
  | setting hline =>
    obtain ⟨t, as, rfl, _, hplain, _⟩ := hline
    obtain ⟨hc, ho⟩ := hplain t List.mem_cons_self
    exact ⟨t, as, rfl, hc, ho⟩
  | node hc ho => exact ⟨_, _, rfl, hc, ho⟩

theorem Entry.Spelled.whole {e : Entry} {ts : List Token} (h : e.Spelled ts) : Whole ts := by
  cases h with
  | setting hline =>
    obtain ⟨_, _, rfl, _, hplain, _⟩ := hline
    exact whole_of_plain hplain
  | node hc ho _ _ hblock =>
    exact whole_cons hc ho ((whole_of_plain hblock.plain).block hblock.opens hblock.closes)

variable {entries : List Entry} {parts : List (List Token)} {t brace last : Token}
  {rest passed : List Token}

theorem whole_entries (h : List.Forall₂ Entry.Spelled entries parts) : Whole parts.flatten := by
  refine whole_flatten fun p hp => ?_
  obtain ⟨e, _, he⟩ := exists_of_mem_of_forall₂ h.flip hp
  exact he.whole

theorem head?_entries (h : List.Forall₂ Entry.Spelled entries parts) :
    ∀ t ∈ parts.flatten.head?, t.closes = false ∧ t.opens = false := by
  intro t ht
  cases h with
  | nil => cases ht
  | cons he _ =>
    obtain ⟨u, used, rfl, hu⟩ := he.eq_cons
    obtain rfl := Option.some.inj ht
    exact hu

theorem readEntry_of_spelled {e : Entry} {used : List Token} {n : Nat} (h : e.Spelled (t :: used))
    (he : EndsLine (t :: used) rest) (a : App) :
    a.readEntry ⟨t :: passed, used ++ rest, n⟩ =
      (.ok (a.put e), ⟨used.reverse ++ t :: passed, rest, n⟩) := by
  have htext : Cursor.text ⟨t :: passed, used ++ rest, n⟩ = t.text := rfl
  rw [readEntry, htext]
  generalize hts : t :: used = ts at h he
  cases h with
  | @setting s _ hline htakes =>
    subst hts
    obtain ⟨_, _, heq, hl, hplain, hkey, hs⟩ := hline
    obtain ⟨rfl, rfl⟩ := List.cons.inj heq
    have hset : Cursor.setting ⟨t :: passed, used ++ rest, n⟩ s.keyword =
        (.ok s, ⟨used.reverse ++ t :: passed, rest, n⟩) :=
      Cursor.setting_of_some
        (takes_of_endsLine hl (fun a ha => (hplain a (List.mem_cons_of_mem _ ha)).2) he hs) hs
    rw [keyword?_of_takes hkey (htakes a)]
    simp only [hset]
    rfl
  | node hc ho hs hnone hblock =>
    obtain ⟨rfl, rfl⟩ := List.cons.inj hts
    rw [hnone a, Node.read_of_block hblock hc ho hs]
    rfl

theorem readBlock_of_entry {c : Cursor} {e : Entry} {used : List Token}
    (h : e.Spelled (t :: used)) (he : EndsLine (t :: used) rest) (a : App)
    (hc : c.nextInBlock 0 = (true, ⟨t :: passed, used ++ rest, 1⟩)) :
    a.readBlock c = (a.put e).readBlock ⟨used.reverse ++ t :: passed, rest, 1⟩ :=
  readBlock_of_ok hc (readEntry_of_spelled h he a)

theorem readBlock_inside (h : List.Forall₂ Entry.Spelled entries parts) (hlaid : Laid parts [last])
    (hl : last.closes = true) (a : App) (passed : List Token) :
    a.readBlock ⟨passed, parts.flatten ++ [last], 1⟩ =
      ⟨entries.foldl put a, ⟨last :: parts.flatten.reverse ++ passed, [], 0⟩, none⟩ := by
  induction h generalizing a passed with
  | nil =>
    exact readBlock_of_false (Cursor.nextInBlock_close hl)
  | @cons e part es parts hs _ ih =>
    obtain ⟨hends, hrest⟩ := hlaid
    obtain ⟨t, used, rfl, hc, ho⟩ := hs.eq_cons
    have hmove : Cursor.nextInBlock ⟨passed, t :: (used ++ (parts.flatten ++ [last])), 1⟩ 0 =
        (true, ⟨t :: passed, used ++ (parts.flatten ++ [last]), 1⟩) :=
      Cursor.nextInBlock_plain hc ho
    have htext : (t :: used) ++ parts.flatten ++ [last] =
        t :: (used ++ (parts.flatten ++ [last])) := by simp
    rw [List.flatten_cons, htext, readBlock_of_entry hs hends a hmove, ih hrest]
    simp

/-- The entries of the global option are applied one after the other. -/
theorem read_of_entries (h : List.Forall₂ Entry.Spelled entries parts) (hlaid : Laid parts [last])
    (hs : t.sharesLine brace = true) (hb : brace.opens = true) (hl : last.closes = true) :
    (App.read (.ofTokens (t :: keptBlock brace parts.flatten last))).1 =
      .ok (entries.foldl put ∅) := by
  have hnext : ∀ kept, Cursor.next? (.ofTokens (t :: kept)) = some ⟨[t], kept, 0⟩ := fun _ => rfl
  have hblock : ∃ c, (∅ : App).readBlock ⟨[t], keptBlock brace parts.flatten last, 0⟩ =
      ⟨entries.foldl put ∅, c, none⟩ := by
    cases h with
    | nil =>
      have hend : Cursor.nextInBlock ⟨[t], [], 0⟩ 0 = (false, ⟨[t], [], 0⟩) :=
        Cursor.nextInBlock_none (Nat.le_refl 0) (by simp)
      exact ⟨⟨[t], [], 0⟩, readBlock_of_false hend⟩
    | @cons e part es parts hentry hentries =>
      obtain ⟨hends, hrest⟩ := hlaid
      obtain ⟨u, used, rfl, hc, _⟩ := hentry.eq_cons
      have hkept : keptBlock brace ((u :: used) :: parts).flatten last =
          brace :: u :: (used ++ (parts.flatten ++ [last])) := by
        simp [keptBlock]
      have hmove : Cursor.nextInBlock
          ⟨[t], brace :: u :: (used ++ (parts.flatten ++ [last])), 0⟩ 0 =
          (true, ⟨u :: brace :: [t], used ++ (parts.flatten ++ [last]), 1⟩) :=
        Cursor.nextInBlock_enter (Nat.le_refl 0) hs hb hc
      rw [hkept, readBlock_of_entry hentry hends ∅ hmove, readBlock_inside hentries hrest hl]
      exact ⟨_, rfl⟩
  obtain ⟨c, hc⟩ := hblock
  rw [read, hnext]
  simp only [hc]

end App

theorem Segment.header_keptBlock {t brace last : Token} {args body : List Token}
    (header : Header t args) (hb : brace.opens = true) :
    Segment.header (t :: args ++ keptBlock brace body last) =
      (args, ⟨args.reverse ++ [t], keptBlock brace body last, 0⟩) := by
  have hend : Cursor.nextArg? ⟨args.reverse ++ [t], keptBlock brace body last, 0⟩ = none := by
    obtain ⟨final, before, _, hrev, _⟩ := exists_last t args
    rw [hrev]
    unfold keptBlock
    split
    next => exact Cursor.nextArg?_of_nil rfl
    next => exact Cursor.nextArg?_of_opens hb
  exact Cursor.args_of_line header.oneLine header.args_opens hend

/-- A directive is read from the block behind its argument, which names the node. -/
theorem Directive.read_of_spelled {t arg brace last : Token} {body us : List Token}
    (h : Segment.Spelled (t :: arg :: keptBlock brace body last) us) (header : Header t [arg])
    (hb : brace.opens = true) (hname : arg.text ≠ "") :
    (Directive.read ∅ (.ofTokens (t :: arg :: keptBlock brace body last))).1 =
      (readOptions (∅ : Settings) ⟨[arg, t], keptBlock brace body last, 0⟩).result.map
        (⟨arg.text, ·⟩) := by
  have hheader : Segment.header (t :: arg :: keptBlock brace body last) =
      ([arg], ⟨[arg, t], keptBlock brace body last, 0⟩) := Segment.header_keptBlock header hb
  have harg : Segment.argument (t :: arg :: keptBlock brace body last) = arg.text := by
    rw [Segment.argument, hheader]
    rfl
  rw [Directive.read_segment h (by rw [hheader]; exact Nat.le_refl 1), hheader, harg, orDefault,
    if_neg hname]

theorem Directive.read_of_options {t arg brace last : Token} {settings : List Setting}
    {lines : List (List Token)} (h : OptionBlock settings brace lines last)
    (header : Header t [arg]) (hline : OneLine [t, arg, brace]) (hname : arg.text ≠ "") :
    (Directive.read ∅ (.ofTokens (t :: arg :: keptBlock brace lines.flatten last))).1 =
      .ok ⟨arg.text, settings.foldl Settings.set ∅⟩ := by
  have hbrace := oneLine_pair.mp (oneLine_cons_cons.mp hline).2
  obtain ⟨before, hread⟩ :=
    readOptions_keptBlock h (fun _ _ _ => rfl) hbrace (∅ : Settings) [t]
  rw [Directive.read_of_spelled (h.spelled header hline) header h.opens hname, hread]
  rfl

end NodeLayers
