import Camille.Histories

/-!
# Going On After a Partial Message

A parser that returns `kPartialMessage` keeps its state and nothing else: neither the
bytes it has read nor the message it was filling. There are two ways of going on with the
same parser: to hand it the bytes that were missing, or all the bytes again. Either is
compared with a fresh parser that gets everything at once.

Going on with the rest reads the same tokens from there on, when the cut is between two
tokens, but into a new message. Handing everything over again makes the parser look for
the token of its state at the beginning of a method, which it never finds.

## Main results

* `partial_cases`: where a parser is that has returned `kPartialMessage`.
* `result_eq_of_leads`: the rest of a chain is answered as the whole.
* `result_resubmitted`: all of the data over again is refused.
* `completion_iff`: when either way gives what a fresh parser does.
-/

open Lib

namespace Camille

/-! ### The rest of the data -/

section Behind

variable {s s' : States} {x y : Bytes}

/-- What stands behind a start line stands behind all of its tokens. -/
theorem exists_ahead_of_leads (h : Leads (s, x) (s', y)) (hs' : s'.rank ≤ States.kHeaders.rank)
    {sl : StartLine} {pos : Bytes} (hy : y = sl.ahead pos s') :
    ∃ sl' : StartLine, x = sl'.ahead pos s :=
  (leads_kHeaders_iff (h.rank_le.trans hs')).mp
    (h.trans ((leads_kHeaders_iff hs').mpr ⟨sl, hy⟩))

/-- A reading of the rest, as a reading of the whole. -/
def Reading.widen (R : Reading s' y) {sl : StartLine}
    (hx : x = sl.ahead (R.block.bytes ++ R.rest) s) : Reading s x where
  startLine := sl
  block := R.block
  rest := R.rest
  data_eq := hx
  fits := R.fits
  splits := R.splits

variable (h : Leads (s, x) (s', y)) (hs' : s'.rank ≤ States.kHeaders.rank)
include h hs'

/-- What is accepted behind tokens is accepted with them. -/
theorem Accepts.of_leads (hy : Accepts s' y) : Accepts s x := by
  obtain ⟨R, hR⟩ := hy
  obtain ⟨sl, hsl⟩ := exists_ahead_of_leads h hs' R.data_eq
  exact ⟨R.widen hsl, hR⟩

/-- What stalls behind tokens stalls with them. -/
theorem Stalls.of_leads (hy : Stalls s' y) : Stalls s x := by
  obtain ⟨R, hR⟩ := hy
  obtain ⟨sl, hsl⟩ := exists_ahead_of_leads h hs' R.data_eq
  exact ⟨R.widen hsl, hR⟩

/-- So does a length that is invalid. -/
theorem BadLength.of_leads (hy : BadLength s' y) : BadLength s x := by
  obtain ⟨R, hR⟩ := hy
  obtain ⟨sl, hsl⟩ := exists_ahead_of_leads h hs' R.data_eq
  exact ⟨R.widen hsl, hR⟩

/-- So does a host that throws. -/
theorem BadHost.of_leads (hy : BadHost s' y) : BadHost s x := by
  obtain ⟨sl, pos, hsl, hthrows⟩ := hy
  obtain ⟨sl', hsl'⟩ := exists_ahead_of_leads h hs' hsl
  exact ⟨sl', pos, hsl', hthrows⟩

omit hs' in
/-- So does a version that is read past the data. -/
theorem ReadsPast.of_leads (hy : ReadsPast s' y) : ReadsPast s x := by
  obtain ⟨hle, hsl⟩ := hy
  have hs := h.rank_le.trans hle
  exact ⟨hs, (leads_kVersion_iff hs).mp (h.trans ((leads_kVersion_iff hle).mpr hsl))⟩

/-- What is refused behind tokens is refused with them, for the same error. -/
theorem Refused.of_leads {e : Errors} (hy : Refused s' y e) : Refused s x e := by
  cases hy with
  | token hchain hrefuses => exact .token (h.trans hchain) hrefuses
  | cut hchain => exact .cut (h.trans hchain)
  | malformed sl hsl hpos =>
      obtain ⟨sl', hsl'⟩ := exists_ahead_of_leads h hs' hsl
      exact .malformed sl' hsl' hpos
  | hosts R hhost =>
      obtain ⟨sl, hsl⟩ := exists_ahead_of_leads h hs' R.data_eq
      exact .hosts (R.widen hsl) hhost
  | awaited R hann hrest =>
      obtain ⟨sl, hsl⟩ := exists_ahead_of_leads h hs' R.data_eq
      exact .awaited (R.widen hsl) hann hrest
  | conflict R hann hrest hte =>
      obtain ⟨sl, hsl⟩ := exists_ahead_of_leads h hs' R.data_eq
      exact .conflict (R.widen hsl) hann hrest hte

end Behind

section Calls

variable {T : Type} [IsReqResType T] {p p' : Parser} {x y a b : Bytes}

open IsReqResType

/-- What a call gives its caller: the outcome without the parser, or nothing when it never
ends. -/
def Parser.result (T : Type) [IsReqResType T] (p : Parser) (data : Bytes) :
    Option (Outcome (Except Errors T)) :=
  (p.parse T data).map Prod.fst

/-- What a call ends in. -/
theorem Parser.result_eq {data : Bytes} {o : Outcome (Except Errors T)} {q : Parser}
    (h : p.parse T data = some (o, q)) : p.result T data = some o := by
  rw [Parser.result, h]
  rfl

/-- **The rest of a chain is answered as the whole**, unless the answer is a message. -/
theorem result_eq_of_leads (hp' : p'.currentState.rank ≤ States.kHeaders.rank)
    (h : Leads (p.currentState, x) (p'.currentState, y)) (hy : y ≠ [])
    (hno : ¬ Accepts p'.currentState y) : p.result T x = p'.result T y := by
  have hp := h.rank_le.trans hp'
  have hx := h.ne_nil hy
  rcases data_cases hp' y with
    haccepts | hstalls | (hbad | hbad) | hpast | ⟨e, hrefused⟩
  · exact absurd haccepts hno
  · rw [Parser.result, Parser.result, hstalls.parse hp', (hstalls.of_leads h hp').parse hp]
  · obtain ⟨q', hq'⟩ := hbad.parse (T := T) hp'
    obtain ⟨q, hq⟩ := (hbad.of_leads h hp').parse (T := T) hp
    rw [Parser.result_eq hq, Parser.result_eq hq']
  · obtain ⟨q', hq'⟩ := parse_of_badHost (T := T) hp' hbad
    obtain ⟨q, hq⟩ := parse_of_badHost (T := T) hp (hbad.of_leads h hp')
    rw [Parser.result_eq hq, Parser.result_eq hq']
  · obtain ⟨q', hq'⟩ := parse_of_readsPast (T := T) hpast
    obtain ⟨q, hq⟩ := parse_of_readsPast (T := T) (hpast.of_leads h)
    rw [Parser.result_eq hq, Parser.result_eq hq']
  · obtain ⟨q', hq'⟩ := hrefused.parse (T := T) hp' hy
    obtain ⟨q, hq⟩ := (hrefused.of_leads h hp').parse (T := T) hp hx
    rw [Parser.result_eq hq, Parser.result_eq hq']

/-- An error is the result exactly of the data that is refused with it. -/
theorem result_error_iff (hp : p.currentState.rank ≤ States.kHeaders.rank) (hx : x ≠ [])
    (e : Errors) :
    p.result T x = some (.returned (.error e)) ↔ Refused p.currentState x e := by
  rw [← parse_error_iff (T := T) hp hx e, Parser.result, Option.map_eq_some_iff]
  constructor
  · rintro ⟨⟨o, q⟩, hq, rfl⟩
    exact ⟨q, hq⟩
  · rintro ⟨q, hq⟩
    exact ⟨_, hq, rfl⟩

/-- No result at all comes of the data that stalls the loop. -/
theorem result_none_iff (hp : p.currentState.rank ≤ States.kHeaders.rank) :
    p.result T x = none ↔ Stalls p.currentState x := by
  rw [← verdict_stalls_iff (T := T) hp, verdict_eq_stalls_iff, Parser.result,
    Option.map_eq_none_iff]

/-- A message is the result exactly of the data that is accepted. -/
theorem result_message_iff (hp : p.currentState.rank ≤ States.kHeaders.rank) :
    (∃ d : T, p.result T x = some (.returned (.ok d))) ↔ Accepts p.currentState x := by
  rw [← verdict_message_iff (T := T) hp, verdict_eq_message_iff]
  refine exists_congr fun d => ?_
  rw [Parser.result, Option.map_eq_some_iff]
  constructor
  · rintro ⟨⟨o, q⟩, hq, rfl⟩
    exact ⟨q, hq⟩
  · rintro ⟨q, hq⟩
    exact ⟨_, hq, rfl⟩

/-- A message that is the result is what a reading of the data shows. -/
theorem exists_reading_of_result {d : T} (h : p.result T x = some (.returned (.ok d))) :
    ∃ R : Reading p.currentState x, R.Shows (fields d) := by
  obtain ⟨⟨o, q⟩, hq, rfl⟩ := Option.map_eq_some_iff.mp h
  exact exists_reading_of_parse hq

/-! ### Where the parser is -/

/-- The tokens of all of the data begin with a method. -/
theorem exists_method_of_leads {s : States} (h : Leads (.kReady, a) (s, [])) (ha : a ≠ []) :
    ∃ m r, a = m ++ r ∧ methodEnum m ≠ .kUnknown ∧ Leads (.kWaitUri, r) (s, []) := by
  rcases h.cases_head with ⟨-, rfl⟩ | ⟨s₁, r₁, hready, hmethod⟩
  · exact absurd rfl ha
  cases hready
  rcases hmethod.cases_head with ⟨-, rfl⟩ | ⟨s₂, r, htok, hrest⟩
  · exact absurd rfl ha
  cases htok with
  | @method m _ hm _ => exact ⟨m, r, rfl, hm, hrest⟩

/-- **Where a parser is that has returned `kPartialMessage`**: in front of the token it had
no data for, at a body, or at the end, behind a carriage return that no line feed
follows. -/
theorem partial_cases
    (h : ({} : Parser).parse T a = some (.returned (.error .kPartialMessage), p)) :
    (a ≠ [] ∧ Leads (.kReady, a) (p.currentState, [])) ∨ p.currentState = .kBodyValidation ∨
      (p.currentState = .kGarbage ∧ p.error = .kPartialMessage ∧
        ∃ r, Leads (.kReady, a) (.kHeadersWait, r) ∧ Refuses .kHeadersWait r) := by
  have ha : a ≠ [] := by
    rintro rfl
    cases h
  have hsame : ∀ {o : Outcome (Except Errors T)} {q : Parser},
      ({} : Parser).parse T a = some (o, q) → q = p := by
    intro o q hq
    exact (Prod.mk.inj (Option.some.inj (hq.symm.trans h))).2
  have hrefused := (parse_error_iff (T := T) Parser.rank_fresh ha _).mp ⟨p, h⟩
  rcases hrefused.awaits_cases with ⟨s₁, hchain⟩ | ⟨R, value, hann, hrest⟩ | ⟨r, hchain, hrefuses⟩
  · obtain ⟨q, hq, rfl⟩ := parse_of_leads_nil (T := T) (p := {}) Parser.rank_fresh ha hchain
    obtain rfl := hsame hq
    exact .inl ⟨ha, hchain⟩
  · obtain rfl := hsame (parse_of_awaited Parser.rank_fresh R hann hrest)
    exact .inr (.inl rfl)
  · obtain ⟨q, hq, hgarbage, herror⟩ := parse_of_refuses (T := T) (p := {}) hchain hrefuses
    obtain rfl := hsame hq
    exact .inr (.inr ⟨hgarbage, herror, r, hchain, hrefuses⟩)

/-! ### Going on with the rest -/

/-- Data that prolongs the token before is refused by the state behind it. -/
theorem refuses_of_not_follows {s : States} (h : ¬ Follows s b) :
    Refuses s b ∧ s.refusal = .kBadRequest := by
  have hb : b ≠ [] := by
    rintro rfl
    cases s <;> simp [Follows] at h
  obtain ⟨c, b, rfl⟩ := List.exists_cons_of_ne_nil hb
  cases s with
  | kWaitUri =>
      refine ⟨⟨by decide, hb, ?_, by simp⟩, rfl⟩
      intro s' r htok
      cases htok with
      | space₁ hc => exact h (by simp [Follows, hc])
  | kWaitVersion =>
      refine ⟨⟨by decide, hb, ?_, by simp⟩, rfl⟩
      intro s' r htok
      cases htok with
      | space₂ hc => exact h (by simp [Follows, hc])
  | _ => exact absurd trivial h

/-- A line feed that is missing stays missing. -/
theorem Refuses.append_headersWait {r : Bytes} (h : Refuses .kHeadersWait r) (b : Bytes) :
    Refuses .kHeadersWait (r ++ b) := by
  obtain ⟨hrank, hr, hno, -⟩ := h
  obtain ⟨c, r, rfl⟩ := List.exists_cons_of_ne_nil hr
  refine ⟨hrank, List.cons_ne_nil _ _, ?_, by simp⟩
  intro s' r' htok
  cases htok with
  | lineFeed hc => exact hno _ _ (.lineFeed hc)

/-- **Going on with the rest of a cut head** gives what a fresh parser does for data that
is no message, and either goes on behind a token or is a bad request with it. -/
theorem result_continued_iff (ha : a ≠ []) (hb : b ≠ [])
    (h : Leads (.kReady, a) (p.currentState, []))
    (hp : p.currentState.rank ≤ States.kHeaders.rank) :
    p.result T b = ({} : Parser).result T (a ++ b) ↔
      ¬ Accepts .kReady (a ++ b) ∧
        (Follows p.currentState b ∨ Refused .kReady (a ++ b) .kBadRequest) := by
  have hfresh := Parser.rank_fresh
  by_cases hfollows : Follows p.currentState b
  · have hrest : Leads (.kReady, a ++ b) (p.currentState, b) := h.append (.inr hfollows)
    constructor
    · intro he
      refine ⟨fun haccepts => ?_, .inl hfollows⟩
      -- both give a message, but only one of them has a method
      obtain ⟨d, hd⟩ := (result_message_iff (T := T) (p := {}) hfresh).mpr haccepts
      obtain ⟨R, hR⟩ := exists_reading_of_result hd
      obtain ⟨R', hR'⟩ := exists_reading_of_result (he.trans hd)
      obtain ⟨m, r, -, -, hwait⟩ := exists_method_of_leads h ha
      exact hR'.not_whole hwait.rank_le hR.whole
    · rintro ⟨hno, -⟩
      exact (result_eq_of_leads (p := {}) hp hrest hb
        fun haccepts => hno (haccepts.of_leads hrest hp)).symm
  · obtain ⟨hrefuses, hbad⟩ := refuses_of_not_follows hfollows
    have herror : p.result T b = some (.returned (.error .kBadRequest)) :=
      (result_error_iff hp hb _).mpr (hbad ▸ .token (.refl _ _) hrefuses)
    have hne : a ++ b ≠ [] := List.append_ne_nil_of_right_ne_nil a hb
    rw [herror, eq_comm, result_error_iff hfresh hne]
    constructor
    · exact fun hrefused => ⟨hrefused.not_accepts hfresh, .inr hrefused⟩
    · rintro ⟨-, hf | hrefused⟩
      · exact absurd hf hfollows
      · exact hrefused

/-! ### Handing everything over again -/

/-- How a method begins: with an upper-case letter, and not like the protocol name. -/
theorem exists_cons_of_methodEnum {m : Bytes} (h : methodEnum m ≠ .kUnknown) :
    ∃ c c' t, m = c :: c' :: t ∧ isUpper c = true ∧ ¬ (c = 'H'.toUInt8 ∧ c' = 'T'.toUInt8) := by
  have hall : methodNames.all (fun m => decide (2 ≤ m.length) && isUpper (m.getD 0 0) &&
      !(m.getD 0 0 == 'H'.toUInt8 && m.getD 1 0 == 'T'.toUInt8)) = true := by
    decide
  have hm := List.all_eq_true.mp hall m (mem_methodNames h)
  rcases m with - | ⟨c, - | ⟨c', t⟩⟩
  · cases hm
  · simp at hm
  · exact ⟨c, c', t, rfl, by simpa [-not_and, not_and_or] using hm⟩

/-- **No state behind the method finds its token at the beginning of a method.** -/
theorem refuses_of_methodEnum {s : States} {m : Bytes} (hm : methodEnum m ≠ .kUnknown)
    (h₁ : States.kMethod.rank < s.rank) (h₂ : s.rank < States.kHeaders.rank) (r : Bytes) :
    Refuses s (m ++ r) := by
  obtain ⟨c, c', t, rfl, hupper, hhttp⟩ := exists_cons_of_methodEnum hm
  have hclasses : ∀ c : UInt8, isUpper c = true →
      isSpace c = false ∧ isSlash c = false ∧ isLF c = false := by
    decide +kernel
  obtain ⟨hspace, hslash, hlf⟩ := hclasses c hupper
  refine ⟨h₂, by simp, ?_, ?_⟩
  · intro s' r' htok
    generalize hw : c :: c' :: t ++ r = w at htok
    cases htok with
    | ready | method => exact absurd h₁ (by decide)
    | space₁ hc | space₂ hc =>
        rw [← (List.cons.inj hw).1, hspace] at hc
        cases hc
    | slash hc =>
        rw [← (List.cons.inj hw).1, hslash] at hc
        cases hc
    | path hpath _ =>
        obtain ⟨t', rfl, -⟩ := hpath
        rw [(List.cons.inj hw).1] at hslash
        cases hslash
    | version _ =>
        obtain ⟨hc, hw⟩ := List.cons.inj hw
        exact hhttp ⟨hc, (List.cons.inj hw).1⟩
    | lineFeed hc =>
        rw [← (List.cons.inj hw).1, hlf] at hc
        cases hc
  · rintro ⟨-, he⟩
    obtain ⟨hc, he⟩ := List.cons.inj he
    exact hhttp ⟨hc, (List.cons.inj he).1⟩

/-- A start line is no header line: white space comes before the first colon. -/
theorem StartLine.ahead_ne_line (sl : StartLine) (pos : Bytes) (h : HeaderLine) (r : Bytes) :
    sl.ahead pos .kReady ≠ h.bytes ++ r := by
  intro he
  have hcolon : ':'.toUInt8 ∉ sl.method := fun hmem =>
    absurd (sl.method_upper _ hmem).1 (by decide)
  have he : sl.method ++ (sl.ws₁ :: (sl.path ++ sl.ws₂ ::
      (ascii "HTTP/" ++ (sl.version ++ 0x0D :: 0x0A :: pos)))) =
      h.key ++ [':'.toUInt8] ++ (h.ws :: (h.raw ++ r)) := by
    rw [List.append_assoc]
    exact he.trans (by simp [HeaderLine.bytes])
  obtain ⟨t, ht, hsplit, hrest⟩ := exists_of_append_eq he hcolon (by simp)
  obtain ⟨c, t, rfl⟩ := List.exists_cons_of_ne_nil (List.ne_nil_of_mem ht)
  have hspace := sl.ws₁_space
  have hmem : c ∈ h.key ++ [':'.toUInt8] := by simp [hsplit]
  rw [(List.cons.inj hrest).1] at hspace
  rcases List.mem_append.mp hmem with hkey | hc
  · have hno : (!isSpace c) = true :=
      ParserTraits.of_isValid (p := fun b => !isSpace b) (by decide) (h.key_valid c hkey)
    simp [hspace] at hno
  · rw [List.mem_singleton.mp hc] at hspace
    exact absurd hspace (by decide)

/-- No header block begins like a start line. -/
theorem malformed_ahead (sl : StartLine) (pos : Bytes) : Malformed (sl.ahead pos .kReady) := by
  refine ⟨by simp [StartLine.ahead, StartLine.target], ?_, ?_⟩
  · rintro ⟨hs, h, r, he, -⟩
    cases hs with
    | nil => exact sl.ahead_ne_line pos h r he
    | cons h' hs =>
        rw [List.flatMap_cons, List.append_assoc, List.append_assoc] at he
        exact sl.ahead_ne_line pos h' _ he
  · rintro ⟨B, rest, he, -⟩
    obtain ⟨r, hr⟩ := exists_joinLines B.first B.others
    rw [HeaderBlock.bytes, hr, List.append_assoc, List.append_assoc] at he
    exact sl.ahead_ne_line pos B.first _ he

/-- **All of the data over again is refused**, with the error of the state the parser is
in. -/
theorem result_resubmitted (ha : a ≠ []) (h : Leads (.kReady, a) (p.currentState, []))
    (hp : p.currentState.rank ≤ States.kHeaders.rank) :
    p.result T (a ++ b) = some (.returned (.error p.currentState.refusal)) := by
  have hne : a ++ b ≠ [] := List.append_ne_nil_of_left_ne_nil ha b
  refine (result_error_iff hp hne _).mpr ?_
  rcases hp.lt_or_eq with hlt | he
  · obtain ⟨m, r, rfl, hm, hwait⟩ := exists_method_of_leads h ha
    rw [List.append_assoc]
    exact .token (.refl _ _) (refuses_of_methodEnum hm hwait.rank_le hlt _)
  · have hheaders := States.rank_inj he
    rw [hheaders] at h ⊢
    obtain ⟨sl, hsl⟩ := (leads_kHeaders_iff Parser.rank_fresh).mp h
    have hdata : a ++ b = sl.ahead b .kReady := by
      rw [hsl, sl.ahead_append, List.nil_append]
    exact .malformed default rfl (hdata ▸ malformed_ahead sl b)

/-- **Handing over all of a cut head again** gives what a fresh parser does when that
happens to be the error of the state the parser is in. -/
theorem result_resubmitted_iff (ha : a ≠ []) (h : Leads (.kReady, a) (p.currentState, []))
    (hp : p.currentState.rank ≤ States.kHeaders.rank) :
    p.result T (a ++ b) = ({} : Parser).result T (a ++ b) ↔
      Refused .kReady (a ++ b) p.currentState.refusal := by
  rw [result_resubmitted ha h hp, eq_comm]
  exact result_error_iff (p := {}) Parser.rank_fresh (List.append_ne_nil_of_left_ne_nil ha b) _

/-! ### Either way -/

/-- Going on with `b`, after `a` has left a parser in the state `s`, makes up for the
cut. -/
def Continues (s : States) (a b : Bytes) : Prop :=
  s = .kGarbage ∨ (s = .kBodyValidation ∧ Stalls .kReady (a ++ b)) ∨
    (s.rank ≤ States.kHeaders.rank ∧ ¬ Accepts .kReady (a ++ b) ∧
      (Follows s b ∨ Refused .kReady (a ++ b) .kBadRequest))

/-- Handing over `a` again, and `b`, after `a` has left a parser in the state `s`, makes up
for the cut. -/
def Resubmits (s : States) (a b : Bytes) : Prop :=
  s = .kGarbage ∨ (s = .kBodyValidation ∧ Stalls .kReady (a ++ b)) ∨
    (s.rank ≤ States.kHeaders.rank ∧ Refused .kReady (a ++ b) s.refusal)

/-- **When a partial message can be completed**, in either way. -/
theorem completion_iff
    (h : ({} : Parser).parse T a = some (.returned (.error .kPartialMessage), p))
    (hb : b ≠ []) :
    (p.result T b = ({} : Parser).result T (a ++ b) ↔ Continues p.currentState a b) ∧
      (p.result T (a ++ b) = ({} : Parser).result T (a ++ b) ↔
        Resubmits p.currentState a b) := by
  have hne : a ++ b ≠ [] := List.append_ne_nil_of_right_ne_nil a hb
  rcases partial_cases h with ⟨ha, hchain⟩ | hbody | ⟨hgarbage, herror, r, hchain, hrefuses⟩
  · have hp := hchain.rank_le_kHeaders Parser.rank_fresh
    have hbefore : p.currentState ≠ .kGarbage ∧ p.currentState ≠ .kBodyValidation := by
      constructor <;> (intro he; rw [he] at hp; exact absurd hp (by decide))
    rw [result_continued_iff ha hb hchain hp, result_resubmitted_iff ha hchain hp]
    simp [Continues, Resubmits, hbefore, hp]
  · -- the headers are gone, and the call goes round in circles
    have hnone : ∀ {x : Bytes}, x ≠ [] → p.result T x = none := by
      intro x hx
      rw [Parser.result, parse_of_bodyValidation hbody hx]
      rfl
    rw [hnone hb, hnone hne, eq_comm, result_none_iff Parser.rank_fresh]
    simp [Continues, Resubmits, hbody, States.rank]
  · have hfinal : ∀ {x : Bytes}, x ≠ [] →
        p.result T x = some (.returned (.error .kPartialMessage)) := by
      intro x hx
      rw [Parser.result, parse_of_final (by rw [hgarbage]; decide) hx, herror]
      rfl
    have hwhole : ({} : Parser).result T (a ++ b) = some (.returned (.error .kPartialMessage)) :=
      (result_error_iff (p := {}) Parser.rank_fresh hne _).mpr
        (.token (hchain.append (.inl hrefuses.2.1)) (hrefuses.append_headersWait b))
    rw [hfinal hb, hfinal hne, hwhole]
    simp [Continues, Resubmits, hgarbage]

end Calls

/-- `completion_iff` on a method that a lower-case letter cuts short: a bad request, in
either way. -/
theorem lowerCase_completed :
    Parser.result Request { totalConsumed := 3, currentState := .kWaitUri } (ascii "s") =
        ({} : Parser).result Request (ascii "GET" ++ ascii "s") ∧
      Parser.result Request { totalConsumed := 3, currentState := .kWaitUri }
          (ascii "GET" ++ ascii "s") =
        ({} : Parser).result Request (ascii "GET" ++ ascii "s") := by
  have hb : ascii "s" ≠ [] := by decide
  have hverdict : verdict (({} : Parser).parse Request (ascii "GET" ++ ascii "s")) ≠ .message := by
    decide
  have hno : ¬ Accepts .kReady (ascii "GET" ++ ascii "s") := fun haccepts =>
    hverdict ((verdict_message_iff Parser.rank_fresh _).mpr haccepts)
  have hrefused : Refused .kReady (ascii "GET" ++ ascii "s") .kBadRequest :=
    (result_error_iff (T := Request) (p := {}) Parser.rank_fresh (by decide) _).mp (by decide)
  have hfollows : Follows .kWaitUri (ascii "s") :=
    (atStop_cons (r := [])).mpr (by decide)
  exact ⟨(completion_iff parse_method hb).1.mpr (.inr (.inr ⟨by decide, hno, .inl hfollows⟩)),
    (completion_iff parse_method hb).2.mpr (.inr (.inr ⟨by decide, hrefused⟩))⟩

/-- **A partial message cannot be completed**: cut behind its method, a request is lost
whichever way the parser goes on. -/
theorem cutRequest_not_completed :
    ¬ ((∀ (a b : Bytes) (p : Parser),
        ({} : Parser).parse Request a = some (.returned (.error .kPartialMessage), p) →
          b ≠ [] → p.result Request b = ({} : Parser).result Request (a ++ b)) ∨
      ∀ (a b : Bytes) (p : Parser),
        ({} : Parser).parse Request a = some (.returned (.error .kPartialMessage), p) →
          b ≠ [] → p.result Request (a ++ b) = ({} : Parser).result Request (a ++ b)) := by
  have hb : ascii " / HTTP/1.1\r\nHost: a:1\r\n\r\n" ≠ [] := by decide
  rintro (hcontinued | hresubmitted)
  · exact absurd (hcontinued _ _ _ parse_method hb) (by decide)
  · exact absurd (hresubmitted _ _ _ parse_method hb) (by decide)

end Camille
