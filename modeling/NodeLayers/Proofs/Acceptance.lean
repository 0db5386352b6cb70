import NodeLayers.Proofs.Concatenation
import NodeLayers.Proofs.Layout
import Mathlib.Data.List.Infix

namespace NodeLayers

/-- A directive's tokens in the text: its own, and behind them the braces of an empty block. -/
def Segment.KeptFrom (s : Segment) (ts : List Token) : Prop :=
  ts = s ∨ ∃ brace last, brace.opens = true ∧ last.closes = true ∧ ts = s ++ [brace, last]

/-- A block's tokens in the text: its keys, and between braces those of its directives. -/
def Block.KeptFrom (b : Block) (ts : List Token) : Prop :=
  ∃ brace last parts, ts = b.keys ++ brace :: (parts.flatten ++ [last]) ∧ brace.opens = true ∧
    last.closes = true ∧ List.Forall₂ Segment.KeptFrom b.segments parts

section kept

variable {s : Segment} {b : Block} {ts : List Token} {d : Document}

theorem Segment.Spelled.keptFrom (h : s.Spelled ts) : s.KeptFrom ts := by
  cases h with
  | line => exact Or.inl rfl
  | emptyBlock _ _ hopens hcloses => exact Or.inr ⟨_, _, hopens, hcloses, rfl⟩
  | block => exact Or.inl rfl

theorem Segment.Spelled.head? (h : s.Spelled ts) :
    ∃ t ∈ s.head?, t.opens = false ∧ t.closes = false := by
  cases h with
  | line header => exact ⟨_, rfl, header.opens, header.closes⟩
  | emptyBlock header => exact ⟨_, rfl, header.opens, header.closes⟩
  | block header => exact ⟨_, rfl, header.opens, header.closes⟩

theorem Block.ReadFrom.keptFrom (h : b.ReadFrom ts) : b.KeptFrom ts := by
  obtain ⟨brace, last, parts, hts, _, _, hopens, hcloses, hparts, _⟩ := h
  exact ⟨brace, last, parts, hts, hopens, hcloses, hparts.imp fun _ _ => Segment.Spelled.keptFrom⟩

/-- The blocks of an accepted text have all of its tokens in their order, but for the braces of
empty blocks of directives. -/
theorem Document.keptFrom_ofTokens (h : Document.ofTokens ts = .ok d) :
    (∃ parts, ts = parts.flatten ∧ List.Forall₂ Block.KeptFrom d parts) ∧
      (∀ b ∈ d.tail, b.keys ≠ []) ∧
      ∀ b ∈ d, ∀ s ∈ b.segments, ∃ t ∈ s.head?, t.opens = false ∧ t.closes = false := by
  obtain ⟨⟨parts, hts, hparts⟩, htail⟩ := ofTokens_eq_ok_iff.mp h
  refine ⟨⟨parts, hts, hparts.imp fun _ _ => Block.ReadFrom.keptFrom⟩, fun b hb => ?_,
    fun b hb s hs => ?_⟩
  · exact List.isEmpty_eq_false_iff.mp (htail b hb)
  · obtain ⟨us, hus⟩ := (spelled_ofTokens h).segment hb hs
    exact hus.head?

/-- Blocks on one line each: a directive with an empty block, and a closing brace among the keys. -/
def crowded : List Token :=
  [⟨none, 1, "\x7b", false⟩, ⟨none, 1, "debug", false⟩, ⟨none, 1, "\x7b", false⟩,
    ⟨none, 1, "\x7d", false⟩, ⟨none, 1, "\x7d", false⟩,
    ⟨none, 2, "\x7d", false⟩, ⟨none, 2, "\x7b", false⟩, ⟨none, 2, "tls", false⟩,
    ⟨none, 2, "\x7b", true⟩, ⟨none, 3, "\x7d", false⟩]

def crowdedBlocks : Document :=
  [⟨[], [[⟨none, 1, "debug", false⟩]]⟩,
    ⟨[⟨none, 2, "\x7d", false⟩], [[⟨none, 2, "tls", false⟩, ⟨none, 2, "\x7b", true⟩]]⟩]

theorem Document.ofTokens_crowded : Document.ofTokens crowded = .ok crowdedBlocks := by
  decide +kernel

theorem Document.keptFrom_crowded :
    Document.ofTokens crowded = .ok crowdedBlocks ∧ (∃ parts, crowded = parts.flatten ∧
      List.Forall₂ Block.KeptFrom crowdedBlocks parts) ∧
      ∀ b ∈ crowdedBlocks.tail, b.keys ≠ [] := by
  obtain ⟨hparts, hkeys, _⟩ := keptFrom_ofTokens ofTokens_crowded
  exact ⟨ofTokens_crowded, hparts, hkeys⟩

end kept

/-- The faults of a text's structure. -/
def Fault.isSyntax : Fault → Bool
  | .unterminatedQuote _ | .missingOpenBrace | .lateGlobalBlock | .unclosedBlock
  | .strayOpenBrace => true
  | .missingArgument _ | .invalidValue _ _ | .unknownOption _ | .repeatedGlobalOption _
  | .refused _ => false

namespace Cursor

variable {c : Cursor} {e : ParseError} {opening : Location} {first : Bool}

theorem isSyntax_of_blockKeys (h : c.blockKeys = .error e) : e.fault.isSyntax = true := by
  unfold blockKeys at h
  split at h
  next => cases h
  next =>
    simp only at h
    split at h
    next => cases h
    next => cases h; rfl

theorem isSyntax_of_blockSegments (h : c.blockSegments opening = .error e) :
    e.fault.isSyntax = true := by
  fun_induction blockSegments c opening generalizing e with
  | case1 => cases h; rfl
  | case2 => cases h
  | case3 => cases h; rfl
  | case4 => cases h; rfl
  | case5 _ _ _ _ _ _ _ _ _ hrest ih => cases h; exact ih hrest
  | case6 => cases h

theorem isSyntax_of_blocks (h : c.blocks first = .error e) : e.fault.isSyntax = true := by
  fun_induction blocks c first generalizing e with
  | case1 => cases h
  | case2 _ _ _ _ _ hk => cases h; exact isSyntax_of_blockKeys hk
  | case3 => cases h; rfl
  | case4 _ _ _ _ _ _ _ _ _ hs => cases h; exact isSyntax_of_blockSegments hs
  | case5 _ _ _ _ _ _ _ _ _ _ _ _ _ _ _ hrest ih => cases h; exact ih hrest
  | case6 => cases h

end Cursor

namespace Document

variable {ts p q : List Token} {d e : Document} {parts : List (List Token)}

theorem ofTokens_append_eq_ok (hp : ofTokens p = .ok e) (h : ofTokens (p ++ q) = .ok d) :
    ∃ rest, d = e ++ rest ∧ (rest = [] → q = []) := by
  obtain ⟨last, hahead, _, hwhole⟩ := ofTokens_append hp q
  rw [h] at hwhole
  cases hrest : last.blocks e.isEmpty with
  | error fault =>
    rw [hrest] at hwhole
    cases hwhole
  | ok rest =>
    rw [hrest] at hwhole
    refine ⟨rest, Except.ok.inj hwhole, ?_⟩
    rintro rfl
    rw [← hahead]
    exact Cursor.next?_eq_none (Cursor.next?_of_blocks_nil hrest)

/-- No text with the same blocks as another is a part of it from the start. -/
theorem eq_of_initial (hp : ofTokens p = .ok d) (hq : ofTokens q = .ok d) (h : p <+: q) :
    p = q := by
  obtain ⟨more, rfl⟩ := h
  obtain ⟨rest, hd, hmore⟩ := ofTokens_append_eq_ok hp hq
  rw [hmore (List.self_eq_append_right.mp hd), List.append_nil]

theorem ofTokens_take (hparts : List.Forall₂ Block.ReadFrom d parts)
    (htail : ∀ b ∈ d.tail, b.isGlobal = false) (k : Nat) :
    ofTokens (parts.take k).flatten = .ok (d.take k) := by
  refine ofTokens_eq_ok_iff.mpr ⟨⟨_, rfl, List.forall₂_take k hparts⟩, fun b hb => ?_⟩
  exact htail b ((List.Sublist.tail (List.take_sublist k d)).subset hb)

/-- A part of an accepted text from its start is accepted just when it ends with a block, and then
as the blocks so far. Any other is refused for its structure. -/
theorem ofTokens_prefix_iff (h : ofTokens ts = .ok d) :
    ∃ parts, ts = parts.flatten ∧ List.Forall₂ Block.KeptFrom d parts ∧ ∀ p, p <+: ts →
      ((∃ e, ofTokens p = .ok e) ↔ ∃ k, p = (parts.take k).flatten) ∧
        (∀ k, p = (parts.take k).flatten → ofTokens p = .ok (d.take k)) ∧
        ∀ fault, ofTokens p = .error fault → fault.fault.isSyntax = true := by
  obtain ⟨⟨parts, rfl, hparts⟩, htail⟩ := ofTokens_eq_ok_iff.mp h
  have htake := ofTokens_take hparts htail
  refine ⟨parts, rfl, hparts.imp fun _ _ => Block.ReadFrom.keptFrom, fun p hp => ⟨⟨?_, ?_⟩, ?_, ?_⟩⟩
  · rintro ⟨e, he⟩
    obtain ⟨more, hmore⟩ := hp
    rw [← hmore] at h
    obtain ⟨rest, rfl, _⟩ := ofTokens_append_eq_ok he h
    -- the blocks so far are those of as many parts, and both texts are cut from the same one
    have hsame := htake e.length
    rw [List.take_left] at hsame
    have hcut : (parts.take e.length).flatten <+: p ++ more := by
      rw [hmore]
      exact List.IsPrefix.flatten (List.take_prefix e.length parts)
    refine ⟨e.length, ?_⟩
    rcases List.prefix_or_prefix_of_prefix (List.prefix_append p more) hcut with hle | hle
    · exact eq_of_initial he hsame hle
    · exact (eq_of_initial hsame he hle).symm
  · rintro ⟨k, rfl⟩
    exact ⟨_, htake k⟩
  · rintro k rfl
    exact htake k
  · exact fun fault hf => Cursor.isSyntax_of_blocks hf

theorem ofTokens_prefix_crowded :
    ofTokens crowded = .ok crowdedBlocks ∧
      (∃ k, ofTokens (crowded.take 5) = .ok (crowdedBlocks.take k)) ∧
      ∃ fault, ofTokens (crowded.take 9) = .error fault ∧ fault.fault.isSyntax = true := by
  have hfirst : ofTokens (crowded.take 5) = .ok [⟨[], [[⟨none, 1, "debug", false⟩]]⟩] := by
    decide +kernel
  have hcut : ofTokens (crowded.take 9) = .error ⟨⟨none, 2⟩, .unclosedBlock⟩ := by
    decide +kernel
  obtain ⟨parts, _, _, hprefix⟩ := ofTokens_prefix_iff ofTokens_crowded
  obtain ⟨hiff, htake, _⟩ := hprefix _ (List.take_prefix 5 crowded)
  obtain ⟨k, hk⟩ := hiff.mp ⟨_, hfirst⟩
  obtain ⟨_, _, hsyntax⟩ := hprefix _ (List.take_prefix 9 crowded)
  exact ⟨ofTokens_crowded, ⟨k, htake k hk⟩, _, hcut, hsyntax _ hcut⟩

end Document

end NodeLayers
