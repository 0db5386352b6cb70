import NodeLayers.Configuration
import NodeLayers.Proofs.Layout
import NodeLayers.Proofs.ValueTexts

namespace NodeLayers

/-- The option that a keyword gives with these arguments, if it takes so many and can read them. -/
def Keyword.setting? : Keyword → List String → Option Setting
  | .authKey, [v] => some (.authKey v)
  | .controlUrl, [v] => some (.controlUrl v)
  | .hostname, [v] => some (.hostname v)
  | .stateDir, [v] => some (.stateDir v)
  | .ephemeral, [] => some (.ephemeral true)
  | .ephemeral, [v] => (flag? v).map .ephemeral
  | .webui, [] => some (.webui true)
  | .webui, [v] => (flag? v).map .webui
  | .port, [v] => (port? v).map .port
  | .tags, vs => some (.tags vs)
  | _, _ => none

def Setting.OnLine (s : Setting) (line : List Token) : Prop :=
  ∃ t as, line = t :: as ∧ OneLine line ∧ (∀ a ∈ line, a.closes = false ∧ a.opens = false) ∧
    t.text = s.keyword.text ∧ s.keyword.setting? (as.map Token.text) = some s

/-- A block with each of these options on a line of its own, and the closing brace too. -/
structure OptionBlock (settings : List Setting) (brace : Token) (lines : List (List Token))
    (last : Token) : Prop where
  opens : brace.opens = true
  closes : last.closes = true
  options : List.Forall₂ Setting.OnLine settings lines
  laid : Laid lines [last]

theorem whole_of_plain {ts : List Token} (h : ∀ t ∈ ts, t.closes = false ∧ t.opens = false) :
    Whole ts := by
  induction ts with
  | nil => exact whole_nil
  | cons t ts ih =>
    obtain ⟨hc, ho⟩ := h t List.mem_cons_self
    exact whole_cons hc ho (ih fun u hu => h u (List.mem_cons_of_mem t hu))

theorem OptionBlock.plain {settings : List Setting} {brace last : Token}
    {lines : List (List Token)} (h : OptionBlock settings brace lines last) :
    ∀ t ∈ lines.flatten, t.closes = false ∧ t.opens = false := by
  intro t ht
  obtain ⟨line, hline, hmem⟩ := List.mem_flatten.mp ht
  obtain ⟨s, _, hs⟩ := exists_of_mem_of_forall₂ h.options.flip hline
  obtain ⟨_, _, _, _, hplain, _⟩ := hs
  exact hplain t hmem

/-- Behind these arguments the keyword would take one more: `tags` takes any number, and every other
keyword one. -/
def Keyword.HasRoom (k : Keyword) (as : List Token) : Prop :=
  k = .tags ∨ as = []

/-- The keyword on the token `t` takes the arguments `as` and leaves `rest`. -/
structure Takes (k : Keyword) (t : Token) (as rest : List Token) : Prop where
  oneLine : OneLine (t :: as)
  plain : ∀ a ∈ as, a.opens = false
  single : k ≠ .tags → as.length ≤ 1
  full : k.HasRoom as → ∀ last ∈ (t :: as).getLast?, ∀ u ∈ rest.head?, u.opens = false →
    last.sharesLine u = false

theorem Keyword.length_le_one {k : Keyword} {vs : List String} {s : Setting}
    (h : k.setting? vs = some s) (hk : k ≠ .tags) : vs.length ≤ 1 := by
  rcases vs with _ | ⟨v, _ | ⟨w, vs⟩⟩
  · exact Nat.zero_le 1
  · exact Nat.le_refl 1
  · cases k with
    | tags => exact absurd rfl hk
    | _ => cases h

/-- An element of two appended lists belongs to the one or to the other. -/
theorem append_eq_append_cons {α : Type} {as bs cs ds : List α} {x : α}
    (h : as ++ bs = cs ++ x :: ds) :
    (∃ later, cs = as ++ later ∧ bs = later ++ x :: ds) ∨
      ∃ later, as = cs ++ x :: later ∧ ds = later ++ bs := by
  rcases List.append_eq_append_iff.mp h with ⟨later, hcs, hbs⟩ | ⟨later, has, hlater⟩
  · exact Or.inl ⟨later, hcs, hbs⟩
  · rcases List.cons_eq_append_iff.mp hlater with ⟨rfl, hbs⟩ | ⟨later, rfl, hds⟩
    · exact Or.inl ⟨[], by rw [has, List.append_nil, List.append_nil], hbs⟩
    · exact Or.inr ⟨later, has, hds⟩

section takes

variable {k : Keyword} {t u last : Token} {as args rest more left : List Token}

/-- Every keyword takes what stands behind it on its line, as far as it has room for it. -/
theorem exists_takes (k : Keyword) (t : Token) (ahead : List Token) :
    ∃ as rest, ahead = as ++ rest ∧ Takes k t as rest := by
  induction ahead generalizing t with
  | nil =>
    refine ⟨[], [], rfl, List.IsChain.singleton t, ?_, fun _ => Nat.zero_le 1, ?_⟩
    · simp
    · simp
  | cons u ahead ih =>
    by_cases harg : t.sharesLine u = true ∧ u.opens = false
    · obtain ⟨hs, ho⟩ := harg
      by_cases hk : k = .tags
      · obtain ⟨as, rest, hahead, htakes⟩ := ih u
        refine ⟨u :: as, rest, by rw [hahead]; rfl, ?_, ?_, fun hne => absurd hk hne, ?_⟩
        · exact oneLine_cons_cons.mpr ⟨hs, htakes.oneLine⟩
        · intro a ha
          rcases List.mem_cons.mp ha with rfl | ha
          · exact ho
          · exact htakes.plain a ha
        · intro _ last hlast
          rw [List.getLast?_cons_cons] at hlast
          exact htakes.full (Or.inl hk) last hlast
      · refine ⟨[u], ahead, rfl, oneLine_pair.mpr hs, ?_, fun _ => Nat.le_refl 1, ?_⟩
        · intro a ha
          obtain rfl := List.mem_singleton.mp ha
          exact ho
        · intro hroom
          exact absurd hroom (not_or.mpr ⟨hk, List.cons_ne_nil u []⟩)
    · refine ⟨[], u :: ahead, rfl, List.IsChain.singleton t, ?_, fun _ => Nat.zero_le 1, ?_⟩
      · simp
      · intro _ last hlast v hv ho
        obtain rfl : t = last := by simpa using hlast
        obtain rfl : u = v := by simpa using hv
        cases hs : t.sharesLine u with
        | false => rfl
        | true => exact absurd ⟨hs, ho⟩ harg

/-- With an argument behind it on its line a keyword has no room left. -/
theorem Takes.not_hasRoom (h : Takes k t as (u :: rest)) (hl : OneLine (t :: (as ++ u :: more)))
    (ho : u.opens = false) : ¬k.HasRoom as := by
  intro hroom
  obtain ⟨last, _, hlast, _, _⟩ := exists_last t as
  have hchain : OneLine ((t :: as) ++ u :: more) := hl
  have hshares : last.sharesLine u = true :=
    (List.isChain_append.mp hchain).2.2 last hlast u rfl
  rw [h.full hroom last hlast u rfl ho] at hshares
  cases hshares

theorem takes_of_endsLine {s : Setting} (hl : OneLine (t :: as)) (ho : ∀ a ∈ as, a.opens = false)
    (he : EndsLine (t :: as) rest) (hs : k.setting? (as.map Token.text) = some s) :
    Takes k t as rest := by
  refine ⟨hl, ho, fun hk => ?_, fun _ last hlast u hu _ => he last hlast u hu⟩
  have hlength := Keyword.length_le_one hs hk
  rwa [List.length_map] at hlength

theorem Takes.of_head? (h : Takes k t as rest) (hhead : ∀ u ∈ more.head?, u ∈ rest.head?) :
    Takes k t as more :=
  ⟨h.oneLine, h.plain, h.single, fun hroom last hlast u hu =>
    h.full hroom last hlast u (hhead u hu)⟩

/-- A keyword with room behind its arguments takes the next token on its line along. -/
theorem Takes.args_of_room (h : Takes k t args left) (hargs : args ++ left = as ++ last :: rest)
    (hroom : k.HasRoom as) (hplain : ∀ a ∈ as, a.opens = false) (hlast : last.opens = false)
    (hl : OneLine (t :: (as ++ [last]))) :
    ∃ more, args = as ++ last :: more ∧ rest = more ++ left := by
  rcases append_eq_append_cons hargs with ⟨later, has, hleft⟩ | htaken
  · exfalso
    subst has
    cases later with
    | nil =>
      rw [List.append_nil] at hl hroom
      rw [hleft] at h
      exact h.not_hasRoom hl hlast hroom
    | cons u later =>
      have hline : OneLine (t :: (args ++ u :: (later ++ [last]))) := by simpa using hl
      have hroom' : k.HasRoom args := Or.inl (hroom.resolve_right (by simp))
      rw [hleft] at h
      exact h.not_hasRoom hline (hplain u (by simp)) hroom'
  · exact htaken

end takes

namespace Cursor

variable {k : Keyword} {t : Token} {as rest passed : List Token} {n : Nat}

theorem nextArg?_of_takes (h : Takes k t as rest) (hroom : k.HasRoom as) :
    nextArg? ⟨as.reverse ++ t :: passed, rest, n⟩ = none := by
  obtain ⟨last, before, hlast, hrev, _⟩ := exists_last t as
  have hpassed : as.reverse ++ t :: passed = last :: (before ++ passed) := by
    rw [List.append_cons, hrev, List.cons_append]
  rw [hpassed]
  cases rest with
  | nil => exact nextArg?_of_nil rfl
  | cons u rest =>
    cases ho : u.opens with
    | true => exact nextArg?_of_opens ho
    | false => exact nextArg?_of_apart (h.full hroom last hlast u rfl ho)

theorem toOption_map_mapError {α : Type} (x : Except ValueFault α) (g : α → Setting) (d : Cursor) :
    ((x.mapError d.invalidValue, d).map (Except.map g) id).2 = d ∧
      ((x.mapError d.invalidValue, d).map (Except.map g) id).1.toOption = x.toOption.map g := by
  cases x <;> exact ⟨rfl, rfl⟩

/-- A keyword is read with the arguments that it takes: to the option that they give, or to a
fault. -/
theorem setting_of_takes (h : Takes k t as rest) (passed : List Token) (n : Nat) :
    (setting ⟨t :: passed, as ++ rest, n⟩ k).2 = ⟨as.reverse ++ t :: passed, rest, n⟩ ∧
      (setting ⟨t :: passed, as ++ rest, n⟩ k).1.toOption = k.setting? (as.map Token.text) := by
  by_cases hk : k = .tags
  · subst hk
    rw [setting, args_of_line h.oneLine h.plain (nextArg?_of_takes h (Or.inl rfl))]
    exact ⟨rfl, rfl⟩
  rcases as with _ | ⟨a, _ | ⟨b, as⟩⟩
  · have hnone : nextArg? ⟨t :: passed, rest, n⟩ = none := nextArg?_of_takes h (Or.inr rfl)
    rw [List.nil_append]
    cases k with
    | ephemeral => rw [setting, flagArg, hnone]; exact ⟨rfl, rfl⟩
    | webui => rw [setting, flagArg, hnone]; exact ⟨rfl, rfl⟩
    | port => rw [setting, portArg, hnone]; exact ⟨rfl, rfl⟩
    | tags => exact absurd rfl hk
    | _ => rw [setting, requiredArg, hnone]; exact ⟨rfl, rfl⟩
  · have hone : nextArg? ⟨t :: passed, a :: rest, n⟩ = some ⟨a :: t :: passed, rest, n⟩ :=
      nextArg?_of_sharesLine (oneLine_pair.mp h.oneLine) (h.plain a List.mem_cons_self)
    rw [List.cons_append, List.nil_append]
    cases k with
    | ephemeral =>
      have hread := toOption_map_mapError (readBool a.text) .ephemeral ⟨a :: t :: passed, rest, n⟩
      rw [toOption_readBool] at hread
      rw [setting, flagArg, hone]
      exact hread
    | webui =>
      have hread := toOption_map_mapError (readBool a.text) .webui ⟨a :: t :: passed, rest, n⟩
      rw [toOption_readBool] at hread
      rw [setting, flagArg, hone]
      exact hread
    | port =>
      have hread := toOption_map_mapError (readPort a.text) .port ⟨a :: t :: passed, rest, n⟩
      rw [toOption_readPort] at hread
      rw [setting, portArg, hone]
      exact hread
    | tags => exact absurd rfl hk
    | _ => rw [setting, requiredArg, hone]; exact ⟨rfl, rfl⟩
  · have hlength := h.single hk
    simp only [List.length_cons] at hlength
    omega

theorem setting_of_some {s : Setting} (h : Takes k t as rest)
    (hs : k.setting? (as.map Token.text) = some s) :
    setting ⟨t :: passed, as ++ rest, n⟩ k = (.ok s, ⟨as.reverse ++ t :: passed, rest, n⟩) := by
  obtain ⟨hcursor, hresult⟩ := setting_of_takes h passed n
  rw [hs] at hresult
  revert hcursor hresult
  generalize setting ⟨t :: passed, as ++ rest, n⟩ k = x
  obtain ⟨result, d⟩ := x
  rintro rfl hresult
  cases result with
  | error e => cases hresult
  | ok s' => rw [Option.some.inj hresult]

end Cursor

theorem Takes.args_eq {k : Keyword} {t : Token} {as as' rest rest' : List Token}
    (h : Takes k t as rest) (h' : Takes k t as' rest') (heq : as ++ rest = as' ++ rest') :
    as = as' := by
  have hleft := (Cursor.setting_of_takes h [] 0).1
  have hright := (Cursor.setting_of_takes h' [] 0).1
  rw [heq, hright] at hleft
  have hpassed := congrArg Cursor.passed hleft
  exact (List.reverse_inj.mp (List.append_cancel_right hpassed)).symm

section readOptions

variable {τ : Type} [OptionRecord τ] {record : τ} {rest passed : List Token}

theorem keyword?_of_takes {k : Keyword} {s : String} (h : s = k.text)
    (ht : OptionRecord.takes record k = true) : OptionRecord.keyword? record s = some k := by
  rw [OptionRecord.keyword?, Keyword.ofText?_eq_some.mpr h.symm, Option.filter_some, if_pos ht]

/-- Where the option block is to be read on at an option line, the option is set. -/
theorem readOptions_of_line {c : Cursor} {s : Setting} {t : Token} {as : List Token}
    (h : s.OnLine (t :: as)) (ht : OptionRecord.takes record s.keyword = true)
    (he : EndsLine (t :: as) rest) (hc : c.nextInBlock 0 = (true, ⟨t :: passed, as ++ rest, 1⟩)) :
    readOptions record c =
      readOptions (OptionRecord.set record s) ⟨as.reverse ++ t :: passed, rest, 1⟩ := by
  obtain ⟨_, _, heq, hl, hplain, htext, hs⟩ := h
  obtain ⟨rfl, rfl⟩ := List.cons.inj heq
  exact readOptions_of_ok hc (keyword?_of_takes htext ht)
    (Cursor.setting_of_some
      (takes_of_endsLine hl (fun a ha => (hplain a (List.mem_cons_of_mem _ ha)).2) he hs) hs)

theorem readOptions_inside {settings : List Setting} {lines : List (List Token)} {last : Token}
    (h : List.Forall₂ Setting.OnLine settings lines)
    (ht : ∀ s ∈ settings, ∀ record : τ, OptionRecord.takes record s.keyword = true)
    (hlaid : Laid lines [last]) (hl : last.closes = true) (record : τ) (passed : List Token) :
    readOptions record ⟨passed, lines.flatten ++ [last], 1⟩ =
      ⟨settings.foldl OptionRecord.set record,
        ⟨last :: lines.flatten.reverse ++ passed, [], 0⟩, none⟩ := by
  induction h generalizing record passed with
  | nil =>
    exact readOptions_of_false (Cursor.nextInBlock_close hl)
  | @cons s line ss lines hs _ ih =>
    obtain ⟨hends, hrest⟩ := hlaid
    have hline := hs
    obtain ⟨t, as, rfl, _, hplain, _⟩ := hline
    obtain ⟨hc, ho⟩ := hplain t List.mem_cons_self
    have hmove : Cursor.nextInBlock ⟨passed, t :: (as ++ (lines.flatten ++ [last])), 1⟩ 0 =
        (true, ⟨t :: passed, as ++ (lines.flatten ++ [last]), 1⟩) :=
      Cursor.nextInBlock_plain hc ho
    have htext : (t :: as) ++ lines.flatten ++ [last] =
        t :: (as ++ (lines.flatten ++ [last])) := by simp
    rw [List.flatten_cons, htext,
      readOptions_of_line hs (ht s List.mem_cons_self record) hends hmove,
      ih (fun s hs => ht s (List.mem_cons_of_mem _ hs)) hrest]
    simp

/-- The options of a block behind a directive's header are set one after the other. -/
theorem readOptions_keptBlock {settings : List Setting} {lines : List (List Token)}
    {t brace last : Token} (h : OptionBlock settings brace lines last)
    (ht : ∀ s ∈ settings, ∀ record : τ, OptionRecord.takes record s.keyword = true)
    (hs : t.sharesLine brace = true) (record : τ) (passed : List Token) :
    ∃ before, readOptions record ⟨t :: passed, keptBlock brace lines.flatten last, 0⟩ =
      ⟨settings.foldl OptionRecord.set record, ⟨before, [], 0⟩, none⟩ := by
  obtain ⟨hb, hl, hlines, hlaid⟩ := h
  cases hlines with
  | nil =>
    have hend : Cursor.nextInBlock ⟨t :: passed, [], 0⟩ 0 = (false, ⟨t :: passed, [], 0⟩) :=
      Cursor.nextInBlock_none (Nat.le_refl 0) (by simp)
    exact ⟨t :: passed, readOptions_of_false hend⟩
  | @cons s line ss lines hline hlines =>
    obtain ⟨hends, hrest⟩ := hlaid
    have hfirst := hline
    obtain ⟨u, as, rfl, _, hplain, _⟩ := hfirst
    have hkept : keptBlock brace ((u :: as) :: lines).flatten last =
        brace :: u :: (as ++ (lines.flatten ++ [last])) := by
      simp [keptBlock]
    have hmove : Cursor.nextInBlock
        ⟨t :: passed, brace :: u :: (as ++ (lines.flatten ++ [last])), 0⟩ 0 =
        (true, ⟨u :: brace :: t :: passed, as ++ (lines.flatten ++ [last]), 1⟩) :=
      Cursor.nextInBlock_enter (Nat.le_refl 0) hs hb (hplain u List.mem_cons_self).1
    rw [hkept, readOptions_of_line hline (ht s List.mem_cons_self record) hends hmove,
      readOptions_inside hlines (fun s hs => ht s (List.mem_cons_of_mem _ hs)) hrest hl]
    exact ⟨_, rfl⟩

end readOptions

end NodeLayers
