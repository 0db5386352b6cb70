import NodeLayers.Proofs.JsonScalars

namespace NodeLayers

/-- Pieces with commas between them and blanks in front of each. -/
def spread (lead : List Char) : List (List Char) → List Char
  | [] => []
  | [t] => lead ++ t
  | t :: u :: ts => lead ++ t ++ ',' :: spread lead (u :: ts)

def memberText (gap : List Char) (name : String) (value : List Char) : List Char :=
  Json.quotedChars name ++ ':' :: (gap ++ value)

def Json.IsScalar : Json → Prop
  | .list _ | .object _ => False
  | .null | .bool _ | .integer _ | .real _ | .text _ => True

/-- A way to write values, in which containers differ by the blanks around their parts only. -/
structure Writing (write : Nat → Json → List Char) : Prop where
  scalar : ∀ depth j, j.IsScalar → write depth j = Json.scalarChars j
  list : ∀ depth items, ∃ lead trail, JsonBlanks lead ∧ JsonBlanks trail ∧
    write depth (.list items) =
      '[' :: (spread lead (items.map (write (depth + 1))) ++ trail ++ [']'])
  object : ∀ depth members, ∃ lead gap trail, JsonBlanks lead ∧ JsonBlanks gap ∧ JsonBlanks trail ∧
    write depth (.object members) =
      '\x7b' :: (spread lead (members.map fun m => memberText gap m.1 (write (depth + 1) m.2)) ++
        trail ++ ['\x7d'])

namespace Json

theorem jsonBlanks_nil : JsonBlanks [] := by
  intro c hc
  cases hc

theorem jsonBlanks_lineBreak (depth : Nat) : JsonBlanks (lineBreak depth) := by
  intro c hc
  rcases List.mem_cons.mp hc with rfl | hc
  · rfl
  · obtain rfl := (List.mem_replicate.mp hc).2
    rfl

theorem itemChars_eq (items : List Json) : itemChars items = spread [] (items.map chars) := by
  induction items with
  | nil => rw [itemChars]; rfl
  | cons j items ih =>
    cases items with
    | nil => rw [itemChars]; rfl
    | cons i items =>
      rw [itemChars, ih]
      · rfl
      · simp

theorem memberChars_eq (members : List (String × Json)) :
    memberChars members = spread [] (members.map fun m => memberText [] m.1 (chars m.2)) := by
  induction members with
  | nil => rw [memberChars]; rfl
  | cons m members ih =>
    cases members with
    | nil => rw [memberChars]; rfl
    | cons n members =>
      rw [memberChars, ih]
      · simp [spread, memberText]
      · simp

theorem writing_chars : Writing fun _ => chars where
  scalar _ j hj := by cases j <;> first | exact hj.elim | rw [chars] <;> simp
  list _ items := ⟨[], [], jsonBlanks_nil, jsonBlanks_nil, by rw [chars, itemChars_eq]; simp⟩
  object _ members :=
    ⟨[], [], [], jsonBlanks_nil, jsonBlanks_nil, jsonBlanks_nil, by
      rw [chars, memberChars_eq]; simp⟩

theorem prettyItems_eq (depth : Nat) (items : List Json) :
    prettyItems depth items = spread (lineBreak depth) (items.map (prettyChars depth)) := by
  induction items with
  | nil => rw [prettyItems]; rfl
  | cons j items ih =>
    cases items with
    | nil => rw [prettyItems]; rfl
    | cons i items =>
      rw [prettyItems, ih]
      · rfl
      · simp

theorem prettyMembers_eq (depth : Nat) (members : List (String × Json)) :
    prettyMembers depth members =
      spread (lineBreak depth)
        (members.map fun m => memberText [' '] m.1 (prettyChars depth m.2)) := by
  induction members with
  | nil => rw [prettyMembers]; rfl
  | cons m members ih =>
    cases members with
    | nil => rw [prettyMembers]; simp [spread, memberText]
    | cons n members =>
      rw [prettyMembers, ih]
      · simp [spread, memberText]
      · simp

theorem writing_prettyChars : Writing prettyChars where
  scalar depth j hj := by cases j <;> first | exact hj.elim | rw [prettyChars] <;> simp
  list depth items := by
    cases items with
    | nil => exact ⟨[], [], jsonBlanks_nil, jsonBlanks_nil, by rw [prettyChars]; rfl⟩
    | cons j items =>
      refine ⟨_, _, jsonBlanks_lineBreak (depth + 1), jsonBlanks_lineBreak depth, ?_⟩
      rw [prettyChars, prettyItems_eq]
      · simp
      · simp
  object depth members := by
    have hgap : JsonBlanks [' '] := by
      intro c hc
      obtain rfl := List.mem_singleton.mp hc
      rfl
    cases members with
    | nil =>
      exact ⟨[], [], [], jsonBlanks_nil, jsonBlanks_nil, jsonBlanks_nil, by rw [prettyChars]; rfl⟩
    | cons m members =>
      refine ⟨_, _, _, jsonBlanks_lineBreak (depth + 1), hgap, jsonBlanks_lineBreak depth, ?_⟩
      rw [prettyChars, prettyMembers_eq]
      · simp
      · simp

end Json

section separated

variable {σ : Type}

/-- Parts from the first one to the closing character, with commas between them. -/
def separatedFrom (close : Char) (part : σ → Reader σ) : Nat → σ → Reader σ
  | 0, _, _ => .error .malformed
  | fuel + 1, s, cs => do
    let (s, rest) ← part s cs
    match skipBlanks rest with
    | [] => .error .ended
    | c :: rest =>
      if c = ',' then separatedFrom close part fuel s rest
      else if c = close then .ok (s, rest)
      else .error .malformed

def memberPart (member : σ → String → Reader σ) (s : σ) : Reader σ := fun cs => do
  let (name, rest) ← readName cs
  member s name rest

/-- Parts behind the opening character of a container, which may have none. -/
def readSeparated (close : Char) (part : σ → Reader σ) (s : σ) (cs : List Char) :
    Except JsonError (Parsed σ) :=
  match skipBlanks cs with
  | [] => separatedFrom close part (cs.length + 1) s cs
  | c :: rest => if c = close then .ok (s, rest) else separatedFrom close part (cs.length + 1) s cs

theorem itemsFrom_eq (item : σ → Reader σ) (fuel : Nat) (s : σ) (cs : List Char) :
    itemsFrom item fuel s cs = separatedFrom ']' item fuel s cs := by
  induction fuel generalizing s cs with
  | zero => rfl
  | succ fuel ih =>
    have hlater : itemsFrom item fuel = separatedFrom ']' item fuel := funext₂ ih
    unfold itemsFrom separatedFrom
    exact hlater ▸ rfl

theorem membersFrom_eq (member : σ → String → Reader σ) (fuel : Nat) (s : σ) (cs : List Char) :
    membersFrom member fuel s cs = separatedFrom '\x7d' (memberPart member) fuel s cs := by
  induction fuel generalizing s cs with
  | zero => rfl
  | succ fuel ih =>
    have hlater : membersFrom member fuel = separatedFrom '\x7d' (memberPart member) fuel :=
      funext₂ ih
    unfold membersFrom separatedFrom memberPart
    rw [hlater]
    cases readName cs with
    | error e => rfl
    | ok x => rfl

theorem readItems_eq (item : σ → Reader σ) (s : σ) (cs : List Char) :
    readItems item s cs = readSeparated ']' item s cs := by
  unfold readItems readSeparated
  rw [itemsFrom_eq]
  split
  next rest hskip => rw [hskip]; rfl
  next hskip =>
    split
    next => rfl
    next c rest hcs =>
      have hc : c ≠ ']' := fun h => hskip rest (h ▸ hcs)
      rw [if_neg hc]

theorem readMembers_eq (member : σ → String → Reader σ) (s : σ) (cs : List Char) :
    readMembers member s cs = readSeparated '\x7d' (memberPart member) s cs := by
  unfold readMembers readSeparated
  rw [membersFrom_eq]
  split
  next rest hskip => rw [hskip]; rfl
  next hskip =>
    split
    next => rfl
    next c rest hcs =>
      have hc : c ≠ '\x7d' := fun h => hskip rest (h ▸ hcs)
      rw [if_neg hc]

/-- From these texts the parts are read one after the other, from one state to the next. -/
inductive ReadsParts (part : σ → Reader σ) : σ → List (List Char) → σ → Prop
  | nil {s} : ReadsParts part s [] s
  | cons {s t u text texts} : Reads (part s) text t → ReadsParts part t texts u →
      ReadsParts part s (text :: texts) u

variable {close : Char} {part : σ → Reader σ} {s t : σ} {texts : List (List Char)}
  {lead trail rest : List Char}

theorem separatedFrom_spread (h : ReadsParts part s texts t) (hne : texts ≠ []) {fuel : Nat}
    (hfuel : texts.length ≤ fuel) (hclose : isJsonBlank close = false)
    (hdelimited : Delimited (close :: rest)) (hcomma : close ≠ ',') (hlead : JsonBlanks lead)
    (htrail : JsonBlanks trail) :
    separatedFrom close part fuel s (spread lead texts ++ trail ++ close :: rest) =
      .ok (t, rest) := by
  induction h generalizing fuel with
  | nil => exact absurd rfl hne
  | @cons s t u text texts hread hrest ih =>
    obtain ⟨fuel, rfl⟩ := Nat.exists_eq_add_one_of_ne_zero
      (Nat.ne_of_gt (Nat.lt_of_lt_of_le (Nat.succ_pos _) hfuel))
    cases hrest with
    | nil =>
      have hpart := hread lead (trail ++ close :: rest) hlead (delimited_append htrail hdelimited)
      have hskip : skipBlanks (trail ++ close :: rest) = close :: rest := by
        rw [skipBlanks_append htrail, skipBlanks_cons hclose]
      rw [spread, List.append_assoc, separatedFrom, hpart]
      simp only [bind, Except.bind, hskip, if_neg hcomma, ↓reduceIte]
    | @cons _ _ _ text' texts hread' hrest' =>
      have hlater := ih (List.cons_ne_nil _ _) (Nat.le_of_succ_le_succ hfuel)
      have hpart := hread lead
        (',' :: (spread lead (text' :: texts) ++ trail ++ close :: rest)) hlead
        (delimited_cons (by decide) _)
      have hsplit : spread lead (text :: text' :: texts) ++ trail ++ close :: rest =
          lead ++ text ++ ',' :: (spread lead (text' :: texts) ++ trail ++ close :: rest) := by
        simp [spread]
      rw [hsplit, separatedFrom, hpart]
      simp only [bind, Except.bind, skipBlanks_cons (c := ',') rfl, ↓reduceIte, hlater]

theorem length_le_spread (lead : List Char) (texts : List (List Char)) :
    texts.length ≤ (spread lead texts).length + 1 := by
  induction texts with
  | nil => exact Nat.zero_le _
  | cons text texts ih =>
    cases texts with
    | nil => simp
    | cons text' texts =>
      have hlength : (spread lead (text :: text' :: texts)).length =
          (lead ++ text).length + ((spread lead (text' :: texts)).length + 1) := by
        rw [spread, List.length_append, List.length_cons]
      rw [hlength, List.length_cons]
      omega

/-- A text of a part begins with a character that neither is blank nor closes the container. -/
def StartsPart (close : Char) (text : List Char) : Prop :=
  ∃ c cs, text = c :: cs ∧ isJsonBlank c = false ∧ c ≠ close

theorem skipBlanks_spread (hstarts : ∀ text ∈ texts, StartsPart close text) (hne : texts ≠ [])
    (hlead : JsonBlanks lead) (more : List Char) :
    ∃ c cs, skipBlanks (spread lead texts ++ more) = c :: cs ∧ c ≠ close := by
  obtain ⟨text, texts, rfl⟩ := List.exists_cons_of_ne_nil hne
  obtain ⟨c, cs, rfl, hblank, hc⟩ := hstarts text List.mem_cons_self
  obtain ⟨later, hspread⟩ : ∃ later, spread lead ((c :: cs) :: texts) = lead ++ c :: later := by
    cases texts with
    | nil => exact ⟨cs, rfl⟩
    | cons text' texts =>
      exact ⟨cs ++ ',' :: spread lead (text' :: texts), by rw [spread, List.append_assoc]; rfl⟩
  refine ⟨c, later ++ more, ?_, hc⟩
  rw [hspread, List.append_assoc, skipBlanks_append hlead, List.cons_append, skipBlanks_cons hblank]

/-- The parts of a container are read up to its closing character, whatever follows. -/
theorem readSeparated_spread (h : ReadsParts part s texts t)
    (hstarts : ∀ text ∈ texts, StartsPart close text) (hclose : isJsonBlank close = false)
    (hdelimited : Delimited (close :: rest)) (hcomma : close ≠ ',') (hlead : JsonBlanks lead)
    (htrail : JsonBlanks trail) :
    readSeparated close part s (spread lead texts ++ trail ++ close :: rest) = .ok (t, rest) := by
  by_cases hne : texts = []
  · subst hne
    cases h
    have hskip : skipBlanks (spread lead [] ++ trail ++ close :: rest) = close :: rest := by
      rw [spread, List.nil_append, skipBlanks_append htrail, skipBlanks_cons hclose]
    rw [readSeparated, hskip]
    exact if_pos rfl
  · obtain ⟨c, cs, hskip, hc⟩ := skipBlanks_spread hstarts hne hlead (trail ++ close :: rest)
    have hlength := length_le_spread lead texts
    have hfuel : texts.length ≤ (spread lead texts ++ trail ++ close :: rest).length + 1 := by
      rw [List.length_append, List.length_append]
      omega
    rw [← List.append_assoc] at hskip
    rw [readSeparated, hskip]
    simp only [if_neg hc]
    exact separatedFrom_spread h hne hfuel hclose hdelimited hcomma hlead htrail

/-- Each value is read behind its name and the colon, from one state to the next. -/
inductive ReadsMembers (member : σ → String → Reader σ) : σ → List (String × List Char) → σ → Prop
  | nil {p} : ReadsMembers member p [] p
  | cons {p q r name value members} : Reads (fun cs => member p name (':' :: cs)) value q →
      ReadsMembers member q members r → ReadsMembers member p ((name, value) :: members) r

variable {member : σ → String → Reader σ} {gap : List Char}

theorem ReadsMembers.parts {members : List (String × List Char)}
    (h : ReadsMembers member s members t) (hgap : JsonBlanks gap) :
    ReadsParts (memberPart member) s (members.map fun m => memberText gap m.1 m.2) t := by
  induction h with
  | nil => exact .nil
  | @cons p q r name value members hread _ ih =>
    refine .cons (fun lead rest hlead hrest => ?_) ih
    have htext : lead ++ memberText gap name value ++ rest =
        lead ++ Json.quotedChars name ++ ':' :: (gap ++ value ++ rest) := by
      simp [memberText]
    have hvalue := hread gap rest hgap hrest
    simp only [memberPart, htext, readName_quoted hlead, bind, Except.bind]
    exact hvalue

theorem startsPart_quoted (hclose : close ≠ '"') (s : String) (more : List Char) :
    StartsPart close (Json.quotedChars s ++ more) :=
  ⟨'"', _, rfl, rfl, hclose.symm⟩

variable {write : Nat → Json → List Char}

theorem Writing.reads_object (w : Writing write) (depth : Nat) {members : List (String × Json)}
    (h : ReadsMembers member s (members.map fun m => (m.1, write (depth + 1) m.2)) t)
    (hlead : JsonBlanks lead) (rest : List Char) :
    ∃ body, readFound (lead ++ write depth (.object members) ++ rest) = .ok (.object, body) ∧
      readMembers member s body = .ok (t, rest) := by
  obtain ⟨inner, gap, trail, hinner, hgap, htrail, hwrite⟩ := w.object depth members
  have hparts : ReadsParts (memberPart member) s
      (members.map fun m => memberText gap m.1 (write (depth + 1) m.2)) t := by
    have hmapped := h.parts hgap
    rwa [List.map_map] at hmapped
  have hstarts : ∀ text ∈ members.map fun m => memberText gap m.1 (write (depth + 1) m.2),
      StartsPart '\x7d' text := by
    intro text htext
    obtain ⟨m, _, rfl⟩ := List.mem_map.mp htext
    exact startsPart_quoted (by decide) m.1 _
  generalize members.map (fun m => memberText gap m.1 (write (depth + 1) m.2)) = texts at *
  refine ⟨spread inner texts ++ trail ++ '\x7d' :: rest, ?_, ?_⟩
  · have htext : lead ++ write depth (.object members) ++ rest =
        lead ++ '\x7b' :: (spread inner texts ++ trail ++ '\x7d' :: rest) := by
      rw [hwrite]
      simp
    rw [htext]
    exact readFound_object hlead _
  · rw [readMembers_eq]
    exact readSeparated_spread hparts hstarts rfl (delimited_cons (by decide) rest) (by decide)
      hinner htrail

theorem Writing.reads_list (w : Writing write) (depth : Nat) {item : σ → Reader σ}
    {items : List Json} (h : ReadsParts item s (items.map (write (depth + 1))) t)
    (hstarts : ∀ j ∈ items, StartsPart ']' (write (depth + 1) j)) (hlead : JsonBlanks lead)
    (rest : List Char) :
    ∃ body, readFound (lead ++ write depth (.list items) ++ rest) = .ok (.list, body) ∧
      readItems item s body = .ok (t, rest) := by
  obtain ⟨inner, trail, hinner, htrail, hwrite⟩ := w.list depth items
  have hstarts' : ∀ text ∈ items.map (write (depth + 1)), StartsPart ']' text := by
    intro text htext
    obtain ⟨j, hj, rfl⟩ := List.mem_map.mp htext
    exact hstarts j hj
  refine ⟨spread inner (items.map (write (depth + 1))) ++ trail ++ ']' :: rest, ?_, ?_⟩
  · have htext : lead ++ write depth (.list items) ++ rest = lead ++ '[' ::
        (spread inner (items.map (write (depth + 1))) ++ trail ++ ']' :: rest) := by
      rw [hwrite]
      simp
    rw [htext]
    exact readFound_list hlead _
  · rw [readItems_eq]
    exact readSeparated_spread h hstarts' rfl (delimited_cons (by decide) rest) (by decide)
      hinner htrail

end separated

section items

variable {α β : Type} {write : Nat → Json → List Char}

/-- A list is read by a reader that puts each item behind those before it. -/
theorem readsParts_append {item : List α → Reader (List α)} {text : β → List Char} {value : β → α}
    (h : ∀ items v, Reads (item items) (text v) (items ++ [value v])) (vs : List β)
    (before : List α) : ReadsParts item before (vs.map text) (before ++ vs.map value) := by
  induction vs generalizing before with
  | nil => rw [List.map_nil, List.map_nil, List.append_nil]; exact .nil
  | cons v vs ih =>
    have hlater := ih (before ++ [value v])
    rw [List.append_assoc] at hlater
    exact .cons (h before v) hlater

theorem Writing.startsPart_texts (w : Writing write) (depth : Nat) (vs : List String) :
    ∀ j ∈ vs.map Json.text, StartsPart ']' (write depth j) := by
  intro j hj
  obtain ⟨v, _, rfl⟩ := List.mem_map.mp hj
  rw [w.scalar depth (.text v) trivial, Json.scalarChars, ← List.append_nil (Json.quotedChars v)]
  exact startsPart_quoted (by decide) v []

end items

end NodeLayers
