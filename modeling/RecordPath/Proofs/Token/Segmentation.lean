import Mathlib.Data.List.Forall2
import RecordPath.Proofs.Token.Lexeme

namespace RecordPath

open Text

/-- A lexeme, the token that it spells, and the blanks behind it. -/
structure Segment where
  token : Token
  lexeme : List Char
  blanks : List Char

namespace Segment

def spread : List Segment → List Char
  | [] => []
  | s :: rest => s.lexeme ++ (s.blanks ++ spread rest)

def locate (offset : Nat) : List Segment → List Located
  | [] => []
  | s :: rest =>
    ⟨s.token, offset⟩ :: locate (offset + byteLength s.lexeme + byteLength s.blanks) rest

/-- Every lexeme spells its token and ends before what follows. -/
inductive Chain : List Segment → Prop
  | nil : Chain []
  | cons {s : Segment} {rest : List Segment} (hs : s.token.Spells s.lexeme)
      (hb : ∀ c ∈ s.blanks, isBlank c = true) (he : s.token.EndsBefore (s.blanks ++ spread rest))
      (h : Chain rest) : Chain (s :: rest)

structure Widens (s s' : Segment) : Prop where
  token : s'.token = s.token
  lexeme : s'.lexeme = s.lexeme
  blanks : s.blanks.Sublist s'.blanks
  blank : ∀ c ∈ s'.blanks, isBlank c = true

end Segment

/-- A text taken apart: the blanks in front, and the segments. -/
structure Segmentation where
  lead : List Char
  segments : List Segment

namespace Segmentation

def chars (g : Segmentation) : List Char := g.lead ++ Segment.spread g.segments

def tokens (g : Segmentation) : List Located := Segment.locate (byteLength g.lead) g.segments

structure Valid (g : Segmentation) : Prop where
  lead : ∀ c ∈ g.lead, isBlank c = true
  chain : Segment.Chain g.segments

structure Widens (g g' : Segmentation) : Prop where
  lead : g.lead.Sublist g'.lead
  blank : ∀ c ∈ g'.lead, isBlank c = true
  segments : List.Forall₂ Segment.Widens g.segments g'.segments

end Segmentation

namespace Segment

variable {s s' : Segment} {segments segments' : List Segment}

theorem Chain.stays (h : Chain segments) : Stays isBlank (spread segments) := by
  cases h with
  | nil => exact stays_nil _
  | cons hs hb he _ => exact (hs.fronts he).stays

theorem Chain.spread_ne_nil (h : Chain (s :: segments)) : spread (s :: segments) ≠ [] := by
  cases h with
  | cons hs hb he _ =>
    exact fun hnil => (hs.fronts he).lexeme_ne_nil (List.append_eq_nil_iff.1 hnil).1

/-- The blanks in front of a text are all that are there, as no lexeme starts with one. -/
theorem Chain.lead_unique {lead lead' : List Char} (h : Chain segments) (h' : Chain segments')
    (hlead : ∀ c ∈ lead, isBlank c = true) (hlead' : ∀ c ∈ lead', isBlank c = true)
    (he : lead ++ spread segments = lead' ++ spread segments') :
    lead = lead' ∧ spread segments = spread segments' := by
  have hblanks : lead = lead' := by
    rw [← takeWhile_of_stays hlead h.stays, he, takeWhile_of_stays hlead' h'.stays]
  rw [hblanks, List.append_cancel_left_eq] at he
  exact ⟨hblanks, he⟩

theorem Chain.unique (h : Chain segments) (h' : Chain segments')
    (he : spread segments = spread segments') : segments = segments' := by
  induction h generalizing segments' with
  | nil =>
    cases segments' with
    | nil => rfl
    | cons s' rest' => exact absurd he.symm h'.spread_ne_nil
  | @cons s rest hs hb hends hrest ih =>
    cases h' with
    | nil => exact absurd he (Chain.cons hs hb hends hrest).spread_ne_nil
    | @cons s' rest' hs' hb' hends' hrest' =>
      obtain ⟨ht, hl⟩ := (hs.fronts hends).unique (hs'.fronts hends') he
      rw [spread, spread, hl, List.append_cancel_left_eq] at he
      obtain ⟨hblanks, hspread⟩ := hrest.lead_unique hrest' hb hb' he
      rw [ih hrest' hspread]
      cases s
      cases s'
      cases ht
      cases hl
      cases hblanks
      rfl

theorem le_position_of_mem_locate {offset : Nat} {l : Located} (h : l ∈ locate offset segments) :
    offset ≤ l.position := by
  induction segments generalizing offset with
  | nil => cases h
  | cons s rest ih =>
    rcases List.mem_cons.1 h with rfl | h
    · exact Nat.le_refl _
    · have := ih h
      omega

theorem Chain.pairwise_locate (h : Chain segments) (offset : Nat) :
    (locate offset segments).Pairwise fun l l' => l.position < l'.position := by
  induction h generalizing offset with
  | nil => exact List.Pairwise.nil
  | @cons s rest hs hb he _ ih =>
    refine List.pairwise_cons.2 ⟨fun l hl => ?_, ih _⟩
    have hle := le_position_of_mem_locate hl
    have hpos : 0 < byteLength s.lexeme := by
      obtain ⟨c, cs, hlexeme⟩ := List.exists_cons_of_ne_nil (hs.fronts he).lexeme_ne_nil
      rw [hlexeme, byteLength_cons]
      have := c.utf8Size_pos
      omega
    show offset < l.position
    omega

theorem map_token_locate (offset : Nat) (segments : List Segment) :
    (locate offset segments).map Located.token = segments.map token := by
  induction segments generalizing offset with
  | nil => rfl
  | cons s rest ih => rw [locate, List.map_cons, List.map_cons, ih]

theorem map_token_of_widens (h : List.Forall₂ Widens segments segments') :
    segments'.map token = segments.map token := by
  induction h with
  | nil => rfl
  | cons hs _ ih => rw [List.map_cons, List.map_cons, ih, hs.token]

/-- Blanks go where there were some, or between lexemes, and neither lengthens a lexeme. -/
theorem Chain.widen (h : Chain segments) (hw : List.Forall₂ Widens segments segments') :
    Chain segments' ∧ (spread segments').head? = (spread segments).head? := by
  induction hw with
  | nil => exact ⟨.nil, rfl⟩
  | @cons s s' rest rest' hfirst _ ih =>
    cases h with
    | cons hs hb he hrest =>
      obtain ⟨hchain, hhead⟩ := ih hrest
      obtain ⟨htoken, hlexeme, hsub, hblank⟩ := hfirst
      have hne := (hs.fronts he).lexeme_ne_nil
      have hends : s.token.EndsBefore (s'.blanks ++ spread rest') := by
        cases hblanks : s'.blanks with
        | nil =>
          rw [hblanks] at hsub
          rw [List.sublist_nil.1 hsub, List.nil_append] at he
          exact he.congr hhead
        | cons b bs =>
          rintro c cs hcs hc
          obtain ⟨rfl, -⟩ := List.cons.inj hcs
          have hb : isBlank b = true := hblank b (hblanks ▸ List.mem_cons_self)
          rw [hc.isBlank] at hb
          cases hb
      refine ⟨.cons (by rwa [htoken, hlexeme]) hblank (by rwa [htoken]) hchain, ?_⟩
      rw [spread, spread, hlexeme, List.head?_append_of_ne_nil _ hne,
        List.head?_append_of_ne_nil _ hne]

end Segment

namespace Segmentation

variable {g g' : Segmentation}

theorem drain_spread {segments : List Segment} (h : Segment.Chain segments) (offset : Nat) :
    (Lexer.mk (Segment.spread segments) offset).drain = .ok (Segment.locate offset segments) := by
  induction h generalizing offset with
  | nil => exact Lexer.drain_of_end rfl rfl
  | cons hs hb he _ ih =>
    rw [Segment.spread, Lexer.drain_of_fronts (hs.fronts he), Lexer.drain_of_blanks hb, ih]
    rfl

/-- A text that is segmented so is cut so. -/
theorem Valid.drain (h : g.Valid) (offset : Nat) :
    (Lexer.mk g.chars offset).drain =
      .ok (Segment.locate (offset + byteLength g.lead) g.segments) := by
  rw [chars, Lexer.drain_of_blanks h.lead, drain_spread h.chain]

/-- A text that is cut is segmented so. -/
theorem exists_of_drain {offset : Nat} {cs : List Char} {ls : List Located}
    (h : (Lexer.mk cs offset).drain = .ok ls) :
    ∃ g : Segmentation, g.Valid ∧ cs = g.chars ∧
      ls = Segment.locate (offset + byteLength g.lead) g.segments := by
  have hlead : ∀ c ∈ cs.takeWhile isBlank, isBlank c = true :=
    fun c hc => List.mem_takeWhile_imp hc
  have hcs := (List.takeWhile_append_dropWhile (p := isBlank) (l := cs)).symm
  rw [hcs, Lexer.drain_of_blanks hlead] at h
  cases hbody : cs.dropWhile isBlank with
  | nil =>
    rw [hbody] at h hcs
    refine ⟨⟨cs.takeWhile isBlank, []⟩, ⟨hlead, .nil⟩, hcs, ?_⟩
    rw [Lexer.drain_of_end rfl rfl] at h
    cases h
    rfl
  | cons c body =>
    rw [hbody] at h hcs
    have hc : isBlank c = false := stays_dropWhile isBlank cs c body hbody
    have hnext : (Lexer.mk (c :: body) (offset + byteLength (cs.takeWhile isBlank))).next =
        (Lexer.mk (c :: body) (offset + byteLength (cs.takeWhile isBlank))).first := by
      rw [Lexer.next, Lexer.skipBlanks_of_not_isBlank hc]
    cases hfront : Token.front c body with
    | mk result lexeme =>
      cases result with
      | error fault =>
        rw [Lexer.first] at hnext
        simp only [hfront] at hnext
        rw [Lexer.drain_of_error hnext] at h
        cases h
      | ok t =>
        obtain ⟨rest, hrest, hspells, he⟩ := Token.of_front hfront
        have hfronts := hspells.fronts he
        have hlength : rest.length < cs.length := by
          have hpos := List.length_pos_iff.2 (Token.front_ne_nil hfront)
          rw [hcs, hrest, List.length_append, List.length_append]
          omega
        rw [hrest, Lexer.drain_of_fronts hfronts] at h
        cases hdrain : (Lexer.mk rest (offset + byteLength (cs.takeWhile isBlank) +
            byteLength lexeme)).drain with
        | error e =>
          rw [hdrain] at h
          cases h
        | ok located =>
          rw [hdrain] at h
          cases h
          obtain ⟨g, hg, rfl, rfl⟩ := exists_of_drain hdrain
          exact ⟨⟨cs.takeWhile isBlank, ⟨t, lexeme, g.lead⟩ :: g.segments⟩,
            ⟨hlead, .cons hspells hg.lead he hg.chain⟩,
            hcs.trans (congrArg (cs.takeWhile isBlank ++ ·) hrest), rfl⟩
termination_by cs.length

theorem Valid.widen (h : g.Valid) (hw : g.Widens g') : g'.Valid where
  lead := hw.blank
  chain := (h.chain.widen hw.segments).1

theorem Valid.tokenize (h : g.Valid) : tokenize (String.ofList g.chars) = .ok g.tokens := by
  rw [RecordPath.tokenize, Lexer.ofString, String.toList_ofList, h.drain, Nat.zero_add]
  rfl

theorem Widens.map_token (h : g.Widens g') :
    g'.tokens.map Located.token = g.tokens.map Located.token := by
  rw [tokens, tokens, Segment.map_token_locate, Segment.map_token_locate,
    Segment.map_token_of_widens h.segments]

end Segmentation

/-- A text is cut into tokens exactly where blanks and lexemes that spell these tokens, each as long
as it can be, make up the text. There is at most one such way, the tokens start one behind the
other, and more blanks around the lexemes leave the tokens as they are. -/
theorem tokenize_eq_ok_iff :
    (∀ (text : String) (ls : List Located), tokenize text = .ok ls ↔
      ∃ g : Segmentation, g.Valid ∧ text.toList = g.chars ∧ ls = g.tokens) ∧
    (∀ g g' : Segmentation, g.Valid → g'.Valid → g.chars = g'.chars → g = g') ∧
    (∀ (text : String) (ls : List Located), tokenize text = .ok ls →
      (ls.map Located.position).Pairwise (· < ·)) ∧
    ∀ g g' : Segmentation, g.Valid → g.Widens g' →
      ∃ ls ls', tokenize (String.ofList g.chars) = .ok ls ∧
        tokenize (String.ofList g'.chars) = .ok ls' ∧
        ls'.map Located.token = ls.map Located.token := by
  have hiff (text : String) (ls : List Located) : tokenize text = .ok ls ↔
      ∃ g : Segmentation, g.Valid ∧ text.toList = g.chars ∧ ls = g.tokens := by
    constructor
    · intro h
      obtain ⟨g, hg, htext, hls⟩ := Segmentation.exists_of_drain h
      rw [Nat.zero_add] at hls
      exact ⟨g, hg, htext, hls⟩
    · rintro ⟨g, hg, htext, rfl⟩
      rw [← hg.tokenize, ← htext, String.ofList_toList]
  refine ⟨hiff, fun g g' hg hg' he => ?_, fun text ls h => ?_, fun g g' hg hw => ?_⟩
  · obtain ⟨hlead, hspread⟩ := hg.chain.lead_unique hg'.chain hg.lead hg'.lead he
    have hsegments := hg.chain.unique hg'.chain hspread
    cases g
    cases g'
    cases hlead
    cases hsegments
    rfl
  · obtain ⟨g, hg, -, rfl⟩ := (hiff text ls).1 h
    exact List.pairwise_map.2 (hg.chain.pairwise_locate _)
  · exact ⟨_, _, hg.tokenize, (hg.widen hw).tokenize, hw.map_token⟩

namespace Segmentation

def tight : Segmentation where
  lead := []
  segments := [⟨.name "a", ['a'], []⟩, ⟨.symbol .lessEqual, ['<', '='], []⟩, ⟨.int 7, ['7'], []⟩]

def wide : Segmentation where
  lead := ['\t']
  segments := [⟨.name "a", ['a'], [' ']⟩, ⟨.symbol .lessEqual, ['<', '='], [' ', ' ']⟩,
    ⟨.int 7, ['7'], []⟩]

theorem valid_tight : tight.Valid where
  lead := nofun
  chain := by
    have hname : Token.Spells (.name "a") ['a'] := .name (by decide) nofun (by decide)
    have hint : Token.Spells (.int 7) ['7'] :=
      .int (by decide) (List.forall_mem_singleton.2 rfl) (by decide)
    refine .cons hname nofun ?_ (.cons (.symbol .lessEqual) nofun ?_ (.cons hint nofun ?_ .nil))
    · rintro c cs ⟨⟩
      exact Bool.eq_false_iff.1 rfl
    · rintro c cs ⟨⟩ ⟨t, ht⟩
      revert ht
      cases t <;> decide
    · rintro c cs ⟨⟩

theorem tight_widens : tight.Widens wide where
  lead := List.nil_sublist _
  blank := List.forall_mem_singleton.2 rfl
  segments := by
    have hname : ∀ c ∈ [' '], isBlank c = true := List.forall_mem_singleton.2 rfl
    have hsymbol : ∀ c ∈ [' ', ' '], isBlank c = true := List.forall_mem_cons.2 ⟨rfl, hname⟩
    exact .cons ⟨rfl, rfl, List.nil_sublist _, hname⟩ (.cons
      ⟨rfl, rfl, List.nil_sublist _, hsymbol⟩ (.cons ⟨rfl, rfl, List.nil_sublist _, nofun⟩ .nil))

end Segmentation

/-- Blanks around a comparison do not matter. -/
theorem tokenize_eq_ok_iff_wide :
    Segmentation.tight.Valid ∧ Segmentation.tight.Widens Segmentation.wide ∧
      ∃ ls ls', tokenize "a<=7" = .ok ls ∧ tokenize "\ta <=  7" = .ok ls' ∧
        ls'.map Located.token = ls.map Located.token :=
  ⟨Segmentation.valid_tight, Segmentation.tight_widens,
    tokenize_eq_ok_iff.2.2.2 _ _ Segmentation.valid_tight Segmentation.tight_widens⟩

end RecordPath
