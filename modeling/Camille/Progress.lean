import Camille.StartLine

/-!
# Progress Through the Start Line

The states before `kHeaders` read one token each: `Token s pos s' pos'` says that the data
begins with the token of the state `s`, which leads to the state `s'` and leaves `pos'`.
The relation knows the data only, not the message or the parser; one iteration of the loop
of `Parse` reads the token that is there, or gives the data up with the error of its state
(`States.refusal`).

## Main results

* `step_of_token`, `step_of_refuses`: what an iteration before `kHeaders` does.
* `leads_of_reaches`, `reaches_of_leads`: a run of the loop is a chain of tokens.
* `leads_kVersion_iff`, `leads_kHeaders_iff`: the chains that read a start line.
* `leads_cases`: where a chain of tokens comes to its end.
* `Leads.append`: more data behind a chain that was read.
* `exists_refuses_of_line`: a line that is no start line is refused whatever follows it.
-/

open Lib

namespace Camille

/-- The error with which a state gives its data up. -/
def States.refusal : States → Errors
  | .kReady => .kStaleParser
  | .kMethod => .kBadMethod
  | .kWaitUri | .kWaitVersion | .kHeaders | .kBodyValidation => .kBadRequest
  | .kUriStart | .kUri => .kBadUri
  | .kVersion => .kBadVersion
  | .kHeadersWait => .kPartialMessage
  | .kBodyChunked => .kBadBody
  | .kBodyIdentify | .kComplete | .kGarbage => .kGeneralError

/-- The token a state before `kHeaders` reads: where it leads, and what it leaves of the
data. -/
inductive Token : States → Bytes → States → Bytes → Prop
  | ready {data : Bytes} : data ≠ [] → Token .kReady data .kMethod data
  | method {m r : Bytes} : methodEnum m ≠ .kUnknown →
      AtStop (fun b => isSpace b || isLower b) r → Token .kMethod (m ++ r) .kWaitUri r
  | space₁ {b : UInt8} {r : Bytes} : isSpace b = true → Token .kWaitUri (b :: r) .kUriStart r
  | slash {b : UInt8} {r : Bytes} : isSlash b = true →
      Token .kUriStart (b :: r) .kUri (b :: r)
  | path {path r : Bytes} : IsPath path → AtStop isSpace r →
      Token .kUri (path ++ r) .kWaitVersion r
  | space₂ {b : UInt8} {r : Bytes} : isSpace b = true →
      Token .kWaitVersion (b :: r) .kVersion r
  | version {v r : Bytes} : (∀ b ∈ v, isVersionByte b = true) →
      Token .kVersion (ascii "HTTP/" ++ (v ++ 0x0D :: r)) .kHeadersWait r
  | lineFeed {b : UInt8} {r : Bytes} : isLF b = true → Token .kHeadersWait (b :: r) .kHeaders r

/-- A state before `kHeaders` gives the data up: there is some, and it does not begin with
the token. The bare protocol name is left out, behind which `ParseVersion` reads on. -/
def Refuses (s : States) (pos : Bytes) : Prop :=
  s.rank < States.kHeaders.rank ∧ pos ≠ [] ∧ (∀ s' pos', ¬ Token s pos s' pos') ∧
    ¬ (s = .kVersion ∧ pos = ascii "HTTP")

/-! ### One token -/

/-- A path begins with a slash. -/
theorem IsPath.ne_nil {path : Bytes} (h : IsPath path) : path ≠ [] := by
  obtain ⟨t, rfl, -⟩ := h
  simp

/-- A method that is known is not empty. -/
theorem ne_nil_of_methodEnum {m : Bytes} (h : methodEnum m ≠ .kUnknown) : m ≠ [] := by
  rintro rfl
  exact h (by decide)

namespace Token

variable {s s' : States} {pos pos' : Bytes}

/-- There is something to read. -/
theorem pos_ne_nil (h : Token s pos s' pos') : pos ≠ [] := by
  cases h with
  | ready hp => exact hp
  | method hm _ => exact List.append_ne_nil_of_left_ne_nil (ne_nil_of_methodEnum hm) _
  | path hp _ => exact List.append_ne_nil_of_left_ne_nil hp.ne_nil _
  | version _ => simp
  | space₁ | slash | space₂ | lineFeed => simp

/-- A token leads to the next state. -/
theorem rank_eq (h : Token s pos s' pos') : s'.rank = s.rank + 1 := by
  cases h <;> rfl

/-- A token begins before the headers. -/
theorem rank_lt (h : Token s pos s' pos') : s.rank < States.kHeaders.rank := by
  cases h <;> decide

end Token

section Step

variable {T : Type} [IsReqResType T] {p : Parser} {pos : Bytes} {d : T}

open IsReqResType

/-- **A token that is there is read.** -/
theorem step_of_token {s' : States} {pos' : Bytes} (h : Token p.currentState pos s' pos')
    (d : T) :
    ∃ d', step ⟨p, pos, d⟩ = .inl ⟨p.begun.enter s', pos', d'⟩ ∧
      (fields d').headers = (fields d).headers := by
  have hpos := h.pos_ne_nil
  generalize hs : p.currentState = s at h
  cases h with
  | ready _ =>
      refine ⟨d, ?_, rfl⟩
      rw [step_kReady hs hpos, Parser.begun]
      simp only [hs, true_and]
  | @method m _ hm hr =>
      refine ⟨setMethod d m, ?_, by simp⟩
      rw [step_kMethod hs hpos, parseMethod_eq_some_iff.mpr ⟨m, rfl, hm, hr, rfl⟩,
        Parser.begun_of_ne (by simp [hs])]
      rfl
  | @path path _ hpath hr =>
      refine ⟨setPath d path, ?_, by simp⟩
      rw [step_kUri hs hpos (parseUri_eq_some_iff.mpr ⟨path, rfl, hpath, hr, rfl⟩),
        Parser.begun_of_ne (by simp [hs])]
      rfl
  | @version v _ hv =>
      refine ⟨setVersion d v, ?_, by simp⟩
      rw [step_kVersion hs hpos (parseVersion_eq_some_iff.mpr ⟨v, rfl, hv, rfl⟩),
        Parser.begun_of_ne (by simp [hs])]
      rfl
  | space₁ hb =>
      exact ⟨d, by rw [step_kWaitUri hs, if_pos hb, Parser.begun_of_ne (by simp [hs])], rfl⟩
  | slash hb =>
      exact ⟨d, by rw [step_kUriStart hs, if_pos hb, Parser.begun_of_ne (by simp [hs])], rfl⟩
  | space₂ hb =>
      exact ⟨d, by rw [step_kWaitVersion hs, if_pos hb, Parser.begun_of_ne (by simp [hs])],
        rfl⟩
  | lineFeed hb =>
      exact ⟨d, by rw [step_kHeadersWait hs, if_pos hb, Parser.begun_of_ne (by simp [hs])],
        rfl⟩

/-- **Without its token a state gives the data up.** -/
theorem step_of_refuses (h : Refuses p.currentState pos) (d : T) :
    step ⟨p, pos, d⟩ = .inl ⟨p.fail p.currentState.refusal, pos, d⟩ := by
  generalize hs : p.currentState = s at h ⊢
  obtain ⟨hrank, hpos, hno, hhttp⟩ := h
  obtain ⟨b, rest, rfl⟩ := List.exists_cons_of_ne_nil hpos
  cases s with
  | kReady => exact absurd (.ready hpos) (hno _ _)
  | kMethod =>
      rw [step_kMethod hs hpos]
      cases hm : parseMethod (b :: rest) d with
      | none => rfl
      | some r =>
          obtain ⟨m, he, hknown, hr, -⟩ := parseMethod_eq_some_iff.mp hm
          rw [he] at hno
          exact absurd (.method hknown hr) (hno _ _)
  | kWaitUri =>
      have hb : ¬ isSpace b = true := fun hb => hno _ _ (.space₁ hb)
      rw [step_kWaitUri hs, if_neg hb]
      rfl
  | kUriStart =>
      have hb : ¬ isSlash b = true := fun hb => hno _ _ (.slash hb)
      rw [step_kUriStart hs, if_neg hb]
      rfl
  | kUri =>
      obtain ⟨v, hv⟩ := parseUri_returned hpos d
      rw [step_kUri hs hpos hv]
      rcases v with - | ⟨r, d'⟩
      · rfl
      · obtain ⟨path, he, hpath, hr, -⟩ := parseUri_eq_some_iff.mp hv
        rw [he] at hno
        exact absurd (.path hpath hr) (hno _ _)
  | kWaitVersion =>
      have hb : ¬ isSpace b = true := fun hb => hno _ _ (.space₂ hb)
      rw [step_kWaitVersion hs, if_neg hb]
      rfl
  | kVersion =>
      obtain ⟨v, hv⟩ := parseVersion_returned (fun he => hhttp ⟨rfl, he⟩) d
      rw [step_kVersion hs hpos hv]
      rcases v with - | ⟨r, d'⟩
      · rfl
      · obtain ⟨version, he, hversion, -⟩ := parseVersion_eq_some_iff.mp hv
        rw [he] at hno
        exact absurd (.version hversion) (hno _ _)
  | kHeadersWait =>
      have hb : ¬ isLF b = true := fun hb => hno _ _ (.lineFeed hb)
      rw [step_kHeadersWait hs, if_neg hb]
      rfl
  | kHeaders | kBodyValidation | kBodyIdentify | kBodyChunked | kComplete | kGarbage =>
      exact absurd hrank (by decide)

/-- A state reads at most one token. -/
theorem Token.unique {s s₁ s₂ : States} {pos r₁ r₂ : Bytes} (h₁ : Token s pos s₁ r₁)
    (h₂ : Token s pos s₂ r₂) : s₁ = s₂ ∧ r₁ = r₂ := by
  obtain ⟨d₁, hd₁, -⟩ := step_of_token (p := ({} : Parser).enter s) h₁ (fresh : Request)
  obtain ⟨d₂, hd₂, -⟩ := step_of_token (p := ({} : Parser).enter s) h₂ (fresh : Request)
  have he := Loop.mk.inj (Sum.inl.inj (hd₁.symm.trans hd₂))
  exact ⟨congrArg Parser.currentState he.1, he.2.1⟩

end Step

/-! ### Chains of tokens -/

/-- Tokens lead from the one state and data to the other. -/
def Leads (x y : States × Bytes) : Prop :=
  Relation.ReflTransGen (fun x y => Token x.1 x.2 y.1 y.2) x y

namespace Leads

variable {s s' s₁ : States} {pos pos' pos₁ : Bytes}

/-- No token at all. -/
theorem refl (s : States) (pos : Bytes) : Leads (s, pos) (s, pos) :=
  Relation.ReflTransGen.refl

/-- One token. -/
theorem single (h : Token s pos s' pos') : Leads (s, pos) (s', pos') :=
  Relation.ReflTransGen.single h

/-- Tokens, and more tokens behind them. -/
theorem trans (h : Leads (s, pos) (s₁, pos₁)) (h' : Leads (s₁, pos₁) (s', pos')) :
    Leads (s, pos) (s', pos') :=
  Relation.ReflTransGen.trans h h'

/-- A chain is empty, or begins with a token. -/
theorem cases_head (h : Leads (s, pos) (s', pos')) :
    (s' = s ∧ pos' = pos) ∨
      ∃ s₁ pos₁, Token s pos s₁ pos₁ ∧ Leads (s₁, pos₁) (s', pos') := by
  rcases Relation.ReflTransGen.cases_head h with he | ⟨⟨s₁, pos₁⟩, htok, hrest⟩
  · obtain ⟨rfl, rfl⟩ := Prod.mk.inj he
    exact .inl ⟨rfl, rfl⟩
  · exact .inr ⟨s₁, pos₁, htok, hrest⟩

/-- Only a chain that goes nowhere leaves no data of none. -/
theorem ne_nil (h : Leads (s, pos) (s', pos')) (hpos' : pos' ≠ []) : pos ≠ [] := by
  rcases h.cases_head with ⟨-, rfl⟩ | ⟨s₁, pos₁, htok, -⟩
  · exact hpos'
  · exact htok.pos_ne_nil

/-- Tokens never lead back. -/
theorem rank_le (h : Leads (s, pos) (s', pos')) : s.rank ≤ s'.rank := by
  generalize hx : (s, pos) = x at h
  generalize hy : (s', pos') = y at h
  induction h generalizing s' pos' with
  | refl =>
      obtain ⟨rfl, -⟩ := Prod.mk.inj (hx.trans hy.symm)
      exact le_rfl
  | @tail a b _ htok ih =>
      have hle := ih rfl
      have hnext := htok.rank_eq
      rw [← hy] at hnext
      simp only at hnext
      omega

/-- A chain from `kHeaders` or before goes no further than `kHeaders`. -/
theorem rank_le_kHeaders (h : Leads (s, pos) (s', pos'))
    (hs : s.rank ≤ States.kHeaders.rank) : s'.rank ≤ States.kHeaders.rank := by
  rcases Relation.ReflTransGen.cases_tail h with he | ⟨⟨s₁, pos₁⟩, -, htok⟩
  · exact (Prod.mk.inj he).1 ▸ hs
  · have hnext := htok.rank_eq
    have hlt := htok.rank_lt
    simp only at hnext hlt
    omega

/-- Of two chains from one place one goes on where the other ends. -/
theorem total {s₂ : States} {pos₂ : Bytes} (h₁ : Leads (s, pos) (s₁, pos₁))
    (h₂ : Leads (s, pos) (s₂, pos₂)) :
    Leads (s₁, pos₁) (s₂, pos₂) ∨ Leads (s₂, pos₂) (s₁, pos₁) := by
  refine Relation.ReflTransGen.total_of_right_unique ?_ h₁ h₂
  intro x y z hy hz
  obtain ⟨hs, hpos⟩ := hy.unique hz
  exact Prod.ext hs hpos

/-- A chain that comes back to its state has not moved. -/
theorem eq_of_refl (h : Leads (s, pos) (s, pos')) : pos' = pos := by
  rcases h.cases_head with ⟨-, rfl⟩ | ⟨s₁, pos₁, htok, hrest⟩
  · rfl
  · have hnext := htok.rank_eq
    have hle := hrest.rank_le
    omega

/-- Two chains from one place that are in one state are in one place. -/
theorem eq_of_state {pos₂ : Bytes} (h₁ : Leads (s, pos) (s', pos₁))
    (h₂ : Leads (s, pos) (s', pos₂)) : pos₁ = pos₂ := by
  rcases h₁.total h₂ with h | h
  · exact h.eq_of_refl.symm
  · exact h.eq_of_refl

end Leads

section Runs

variable {T : Type} [IsReqResType T] {p : Parser} {pos : Bytes} {d : T}

open IsReqResType

/-- **A chain of tokens is read**, whatever the message so far. -/
theorem reaches_of_leads {s' : States} {pos' : Bytes}
    (h : Leads (p.currentState, pos) (s', pos')) (d : T) :
    ∃ (p' : Parser) (d' : T), Reaches step ⟨p, pos, d⟩ ⟨p', pos', d'⟩ ∧
      p'.currentState = s' ∧ (fields d').headers = (fields d).headers := by
  generalize hy : (s', pos') = y at h
  induction h generalizing s' pos' with
  | refl =>
      obtain ⟨rfl, rfl⟩ := Prod.mk.inj hy
      exact ⟨p, d, .refl _, rfl, rfl⟩
  | @tail a b _ htok ih =>
      obtain ⟨p₁, d₁, hreach, hs₁, hd₁⟩ := ih rfl
      rw [← hs₁, ← hy] at htok
      obtain ⟨d₂, hstep, hd₂⟩ := step_of_token htok d₁
      exact ⟨_, d₂, hreach.trans (.single hstep), rfl, hd₂.trans hd₁⟩

/-- **A run of the loop up to the headers is a chain of tokens.** -/
theorem leads_of_reaches {l : Loop T} (h : Reaches step ⟨p, pos, d⟩ l)
    (hl : l.rank ≤ States.kHeaders.rank) :
    Leads (p.currentState, pos) (l.parser.currentState, l.pos) := by
  induction h with
  | refl => exact .refl _ _
  | @tail a b _ hstep ih =>
      rcases step_climbs a b hstep with rfl | hlt
      · exact ih hl
      have hchain := ih (by omega)
      have hrank : a.parser.currentState.rank < States.kHeaders.rank := by
        simp only [Loop.rank] at hlt hl
        omega
      by_cases htok : ∃ s' pos', Token a.parser.currentState a.pos s' pos'
      · obtain ⟨s', pos', htok⟩ := htok
        obtain ⟨d', hstep', -⟩ := step_of_token htok a.dtype
        obtain rfl := Sum.inl.inj (hstep.symm.trans hstep')
        exact hchain.trans (.single htok)
      · -- without a token the iteration gives the data up, or leaves the loop
        have hpos := pos_ne_nil_of_step hstep
        by_cases hhttp : a.parser.currentState = .kVersion ∧ a.pos = ascii "HTTP"
        · have hundef := step_kVersion_undefined hhttp.1 hpos
            (hhttp.2 ▸ parseVersion_http a.dtype)
          exact absurd (hstep.symm.trans hundef) (by simp)
        · have hno : ∀ s' pos', ¬ Token a.parser.currentState a.pos s' pos' :=
            fun s' pos' h => htok ⟨s', pos', h⟩
          have hfail := step_of_refuses ⟨hrank, hpos, hno, hhttp⟩ a.dtype
          obtain rfl := Sum.inl.inj (hstep.symm.trans hfail)
          exact absurd hl (by simp [Loop.rank, States.rank])

end Runs

/-! ### Chains that read a start line -/

section StartLine

variable {s s' : States} {x y pos tail : Bytes}

/-- A token in front of the rest of a method and a path. -/
theorem Token.exists_target (h : Token s x s' y) (hs' : s'.rank ≤ States.kVersion.rank)
    {sl : StartLine} (hy : y = sl.target tail s') :
    ∃ sl' : StartLine, x = sl'.target tail s ∧ sl'.version = sl.version := by
  subst hy
  generalize hr : sl.target tail s' = r at h
  cases h with
  | ready _ => exact ⟨sl, hr.symm, rfl⟩
  | @method m _ hm _ => exact ⟨{ sl with method := m, method_known := hm }, by rw [← hr]; rfl, rfl⟩
  | @space₁ b _ hb => exact ⟨{ sl with ws₁ := b, ws₁_space := hb }, by rw [← hr]; rfl, rfl⟩
  | slash _ => exact ⟨sl, hr.symm, rfl⟩
  | @path path _ hp _ => exact ⟨{ sl with path := path, path_valid := hp }, by rw [← hr]; rfl, rfl⟩
  | @space₂ b _ hb => exact ⟨{ sl with ws₂ := b, ws₂_space := hb }, by rw [← hr]; rfl, rfl⟩
  | version _ | lineFeed _ => exact absurd hs' (by decide)

/-- The token at the head of what is left of a method and a path. -/
theorem exists_token_target (sl : StartLine) (tail : Bytes)
    (hs : s.rank < States.kVersion.rank) :
    ∃ s', Token s (sl.target tail s) s' (sl.target tail s') := by
  cases s with
  | kReady => exact ⟨.kMethod, .ready (by simp [StartLine.target])⟩
  | kMethod => exact ⟨.kWaitUri, .method sl.method_known (by simp [sl.ws₁_space])⟩
  | kWaitUri => exact ⟨.kUriStart, .space₁ sl.ws₁_space⟩
  | kUriStart =>
      obtain ⟨t, ht, -⟩ := sl.path_valid
      refine ⟨.kUri, ?_⟩
      simp only [StartLine.target, ht, List.cons_append]
      exact .slash (by decide)
  | kUri => exact ⟨.kWaitVersion, .path sl.path_valid (by simp [sl.ws₂_space])⟩
  | kWaitVersion => exact ⟨.kVersion, .space₂ sl.ws₂_space⟩
  | kVersion | kHeadersWait | kHeaders | kBodyValidation | kBodyIdentify | kBodyChunked
  | kComplete | kGarbage => exact absurd hs (by decide)

/-- A method and a path are read token by token. -/
theorem leads_target (sl : StartLine) (tail : Bytes) (hle : s.rank ≤ s'.rank)
    (hs' : s'.rank ≤ States.kVersion.rank) :
    Leads (s, sl.target tail s) (s', sl.target tail s') := by
  induction hn : s'.rank - s.rank generalizing s with
  | zero =>
      obtain rfl : s = s' := States.rank_inj (by omega)
      exact .refl _ _
  | succ n ih =>
      obtain ⟨s₁, htok⟩ := exists_token_target sl tail (s := s) (by omega)
      have hnext := htok.rank_eq
      exact (Leads.single htok).trans (ih (by omega) (by omega))

/-- **The chains up to `kVersion`** read a method and a path, or what is left of them. -/
theorem leads_kVersion_iff (hs : s.rank ≤ States.kVersion.rank) :
    Leads (s, x) (.kVersion, tail) ↔ ∃ sl : StartLine, x = sl.target tail s := by
  constructor
  · intro h
    have hx : ∀ a : States × Bytes, Leads a (.kVersion, tail) →
        ∃ sl : StartLine, a.2 = sl.target tail a.1 := by
      intro a ha
      induction ha using Relation.ReflTransGen.head_induction_on with
      | refl => exact ⟨default, rfl⟩
      | head htok hrest ih =>
          obtain ⟨sl, hsl⟩ := ih
          obtain ⟨sl', hsl', -⟩ := htok.exists_target (Leads.rank_le hrest) hsl
          exact ⟨sl', hsl'⟩
    exact hx _ h
  · rintro ⟨sl, rfl⟩
    exact leads_target sl tail hs le_rfl

/-- **The chains up to `kHeaders`** read a start line, or what is left of it. -/
theorem leads_kHeaders_iff (hs : s.rank ≤ States.kHeaders.rank) :
    Leads (s, x) (.kHeaders, pos) ↔ ∃ sl : StartLine, x = sl.ahead pos s := by
  constructor
  · intro h
    have hx : ∀ a : States × Bytes, Leads a (.kHeaders, pos) →
        ∃ sl : StartLine, a.2 = sl.ahead pos a.1 := by
      intro a ha
      induction ha using Relation.ReflTransGen.head_induction_on with
      | refl => exact ⟨default, rfl⟩
      | @head a b htok _ ih =>
          obtain ⟨sl, hsl⟩ := ih
          obtain ⟨s, x⟩ := a
          obtain ⟨s', y⟩ := b
          by_cases hs' : s'.rank ≤ States.kVersion.rank
          · have hs : s.rank ≤ States.kVersion.rank := by
              have := htok.rank_eq
              simp only at this
              omega
            obtain ⟨sl', hsl', hversion⟩ :=
              htok.exists_target hs' (hsl.trans (sl.ahead_eq hs' pos))
            refine ⟨sl', ?_⟩
            rw [sl'.ahead_eq hs, hversion]
            exact hsl'
          · simp only at htok hsl
            cases htok with
            | @version v _ hv =>
                exact ⟨{ sl with version := v, version_valid := hv }, by rw [hsl]; rfl⟩
            | lineFeed hb =>
                have hb := eq_of_beq hb
                exact ⟨sl, by rw [hb, hsl]; rfl⟩
            | ready | method | space₁ | slash | path | space₂ => exact absurd (by decide) hs'
    exact hx _ h
  · rintro ⟨sl, rfl⟩
    have hwait : Leads (.kHeadersWait, 0x0A :: pos) (.kHeaders, pos) :=
      .single (.lineFeed isLF_lf)
    by_cases hv : s.rank ≤ States.kVersion.rank
    · rw [sl.ahead_eq hv]
      exact ((leads_kVersion_iff hv).mpr ⟨sl, rfl⟩).trans
        ((Leads.single (.version sl.version_valid)).trans hwait)
    · rcases States.eq_of_rank hv hs with rfl | rfl
      · exact hwait
      · exact .refl _ _

/-- **Where a chain of tokens ends**: at the headers, at the end of the data, behind the
bare protocol name, or where a state refuses what it finds. -/
theorem leads_cases (hs : s.rank ≤ States.kHeaders.rank) (x : Bytes) :
    ∃ s₁ r, Leads (s, x) (s₁, r) ∧
      (s₁ = .kHeaders ∨ (s₁.rank < States.kHeaders.rank ∧ r = []) ∨
        (s₁ = .kVersion ∧ r = ascii "HTTP") ∨ Refuses s₁ r) := by
  induction hn : States.kHeaders.rank - s.rank generalizing s x with
  | zero =>
      have hs : s = .kHeaders := by
        cases s <;> simp_all [States.rank]
      exact ⟨s, x, .refl _ _, .inl hs⟩
  | succ n ih =>
      by_cases htok : ∃ s' y, Token s x s' y
      · obtain ⟨s', y, htok⟩ := htok
        have hnext := htok.rank_eq
        obtain ⟨s₁, r, hchain, hend⟩ := ih (s := s') (by omega) y (by omega)
        exact ⟨s₁, r, (Leads.single htok).trans hchain, hend⟩
      · refine ⟨s, x, .refl _ _, .inr ?_⟩
        have hlt : s.rank < States.kHeaders.rank := by omega
        by_cases hx : x = []
        · exact .inl ⟨hlt, hx⟩
        · by_cases hhttp : s = .kVersion ∧ x = ascii "HTTP"
          · exact .inr (.inl hhttp)
          · exact .inr (.inr ⟨hlt, hx, fun s' y h => htok ⟨s', y, h⟩, hhttp⟩)

end StartLine

/-! ### The end of a chain -/

section Ends

variable {T : Type} [IsReqResType T] {p : Parser} {pos : Bytes} {d : T}

/-- The data is a start line that breaks off right behind `HTTP`. -/
def ReadsPast (s : States) (data : Bytes) : Prop :=
  s.rank ≤ States.kVersion.rank ∧ ∃ sl : StartLine, data = sl.target (ascii "HTTP") s

/-- Behind the bare protocol name the parser reads a byte that is not there. -/
theorem exits_of_readsPast (h : ReadsPast p.currentState pos) :
    Exits step ⟨p, pos, d⟩ (.undefined, p.begun.enter .kVersion) := by
  obtain ⟨hs, sl, rfl⟩ := h
  refine ((reaches_target hs sl _).exits_iff _).mpr ?_
  exact (exits_iff_of_inr (step_kVersion_undefined rfl (by decide)
    (parseVersion_http _))).mpr rfl

/-- A chain that ends in a refusal ends the run, with the error of the state. -/
theorem exits_of_refuses {s₁ : States} {r : Bytes} (h : Leads (p.currentState, pos) (s₁, r))
    (hr : Refuses s₁ r) :
    ∃ q, Exits step ⟨p, pos, d⟩ (.returned (.error s₁.refusal), q) ∧
      q.currentState = .kGarbage ∧ q.error = s₁.refusal := by
  obtain ⟨p', d', hreach, rfl, -⟩ := reaches_of_leads h d
  refine ⟨p'.fail p'.currentState.refusal, (hreach.exits_iff _).mpr ?_, rfl, rfl⟩
  exact (exits_iff_of_inl (step_of_refuses hr d')).mpr (exits_fail _ _ _ _)

/-- A chain that takes up all of the data ends the run in the state it leads to. -/
theorem exits_of_leads_nil {s₁ : States} (h : Leads (p.currentState, pos) (s₁, []))
    (hs₁ : s₁.Running) :
    ∃ q, Exits step ⟨p, pos, d⟩ (.returned (.error .kPartialMessage), q) ∧
      q.currentState = s₁ := by
  obtain ⟨p', d', hreach, rfl, -⟩ := reaches_of_leads h d
  exact ⟨p', (hreach.exits_iff _).mpr (exits_nil rfl hs₁), rfl⟩

end Ends

/-! ### More data behind a chain -/

section Append

variable {s s' : States} {x y : Bytes}

/-- The data can follow what led to the state: it does not prolong the token before. -/
def Follows (s : States) (b : Bytes) : Prop :=
  match s with
  | .kWaitUri => AtStop (fun b => isSpace b || isLower b) b
  | .kWaitVersion => AtStop isSpace b
  | _ => True

/-- A token stays one when more bytes come behind it. -/
theorem Token.append (h : Token s x s' y) {b : Bytes} (hb : y ≠ [] ∨ Follows s' b) :
    Token s (x ++ b) s' (y ++ b) := by
  cases h with
  | ready hx => exact .ready (List.append_ne_nil_of_left_ne_nil hx b)
  | method hm hr =>
      rw [List.append_assoc]
      exact .method hm (hr.append hb)
  | path hp hr =>
      rw [List.append_assoc]
      exact .path hp (hr.append hb)
  | version hv =>
      rw [List.append_assoc, List.append_assoc]
      exact .version hv
  | space₁ hb' => exact .space₁ hb'
  | slash hb' => exact .slash hb'
  | space₂ hb' => exact .space₂ hb'
  | lineFeed hb' => exact .lineFeed hb'

/-- **A chain is read alike when more data follows it**, unless that data prolongs its last
token. -/
theorem Leads.append (h : Leads (s, x) (s', y)) {b : Bytes} (hb : y ≠ [] ∨ Follows s' b) :
    Leads (s, x ++ b) (s', y ++ b) := by
  generalize hz : (s', y) = z at h
  induction h generalizing s' y with
  | refl =>
      obtain ⟨rfl, rfl⟩ := Prod.mk.inj hz
      exact .refl _ _
  | @tail a c _ htok ih =>
      have hchain : Leads (s, x ++ b) (a.1, a.2 ++ b) := ih (.inl htok.pos_ne_nil) rfl
      rw [← hz] at htok
      exact hchain.trans (.single (htok.append hb))

/-! A line feed ends the start line: no token before `kHeaders` goes over one, and what is
refused of a line is refused whatever follows the line. -/

/-- A token of data with a line feed is a token of the beginning up to there. -/
theorem Token.of_append {b z : Bytes} (h : Token s (x ++ b) s' z) (hx : (0x0A : UInt8) ∈ x) :
    ∃ y, z = y ++ b ∧ Token s x s' y ∧ (s' ≠ .kHeaders → (0x0A : UInt8) ∈ y) := by
  have hspace : ∀ {c : UInt8} {y : Bytes}, isSpace c = true → (0x0A : UInt8) ∈ c :: y →
      (0x0A : UInt8) ∈ y := by
    rintro c y hc hmem
    refine (List.mem_cons.mp hmem).resolve_left ?_
    rintro rfl
    exact absurd hc (by decide)
  have hne : x ≠ [] := List.ne_nil_of_mem hx
  obtain ⟨c, y, rfl⟩ := List.exists_cons_of_ne_nil hne
  generalize hw : c :: y ++ b = w at h
  cases h with
  | ready _ => exact ⟨_, hw.symm, .ready hne, fun _ => hx⟩
  | @method m r hm hr =>
      have hlf : (0x0A : UInt8) ∉ m := fun hmem =>
        absurd (plain_of_methodEnum hm 0x0A hmem).2 (by decide)
      obtain ⟨t, ht, he, rfl⟩ := exists_of_append_eq hw.symm hlf hx
      rw [he]
      exact ⟨t, rfl, .method hm (hr.of_append (List.ne_nil_of_mem ht)), fun _ => ht⟩
  | space₁ hc =>
      obtain ⟨rfl, rfl⟩ := List.cons.inj hw
      exact ⟨y, rfl, .space₁ hc, fun _ => hspace hc hx⟩
  | slash hc =>
      obtain ⟨rfl, rfl⟩ := List.cons.inj hw
      exact ⟨c :: y, rfl, .slash hc, fun _ => hx⟩
  | @path path r hp hr =>
      have hlf : (0x0A : UInt8) ∉ path := fun hmem =>
        absurd (hp.visible 0x0A hmem).1 (by decide)
      obtain ⟨t, ht, he, rfl⟩ := exists_of_append_eq hw.symm hlf hx
      rw [he]
      exact ⟨t, rfl, .path hp (hr.of_append (List.ne_nil_of_mem ht)), fun _ => ht⟩
  | space₂ hc =>
      obtain ⟨rfl, rfl⟩ := List.cons.inj hw
      exact ⟨y, rfl, .space₂ hc, fun _ => hspace hc hx⟩
  | @version v r hv =>
      have hlf : (0x0A : UInt8) ∉ ascii "HTTP/" ++ (v ++ [0x0D]) := by
        rw [List.mem_append, List.mem_append, not_or, not_or]
        exact ⟨by decide, fun hmem => absurd (hv 0x0A hmem) (by decide), by decide⟩
      have hw : ascii "HTTP/" ++ (v ++ [0x0D]) ++ z = c :: y ++ b := by simp [hw]
      obtain ⟨t, ht, he, rfl⟩ := exists_of_append_eq hw hlf hx
      rw [he, List.append_assoc, List.append_assoc]
      exact ⟨t, rfl, .version hv, fun _ => ht⟩
  | lineFeed hc =>
      obtain ⟨rfl, rfl⟩ := List.cons.inj hw
      exact ⟨y, rfl, .lineFeed hc, fun hs' => absurd rfl hs'⟩

/-- **What is refused of a line is refused whatever follows the line.** -/
theorem Refuses.append (h : Refuses s x) (hx : (0x0A : UInt8) ∈ x) (b : Bytes) :
    Refuses s (x ++ b) := by
  obtain ⟨hrank, hne, hno, hhttp⟩ := h
  refine ⟨hrank, List.append_ne_nil_of_left_ne_nil hne b, ?_, ?_⟩
  · intro s' z htok
    obtain ⟨y, -, htok, -⟩ := htok.of_append hx
    exact hno _ _ htok
  · rintro ⟨-, he⟩
    have hmem : (0x0A : UInt8) ∈ ascii "HTTP" := he ▸ List.mem_append_left b hx
    exact absurd hmem (by decide)

/-- The line feed stays ahead up to `kHeaders`. -/
theorem Leads.lf_mem (h : Leads (s, x) (s', y)) (hx : (0x0A : UInt8) ∈ x)
    (hs' : s'.rank < States.kHeaders.rank) : (0x0A : UInt8) ∈ y := by
  generalize hz : (s', y) = z at h
  induction h generalizing s' y with
  | refl =>
      obtain ⟨rfl, rfl⟩ := Prod.mk.inj hz
      exact hx
  | @tail a c _ htok ih =>
      rw [← hz, ← List.append_nil a.2] at htok
      obtain ⟨t, rfl, htok, hlf⟩ := htok.of_append (ih htok.rank_lt rfl)
      rw [List.append_nil]
      exact hlf (by rintro rfl; exact absurd hs' (by decide))

/-- **A line that is no start line is refused**, the same way whatever follows it. -/
theorem exists_refuses_of_line (hs : s.rank ≤ States.kHeaders.rank) (hx : (0x0A : UInt8) ∈ x)
    (hno : ¬ ∃ (sl : StartLine) (pos : Bytes), x = sl.ahead pos s) :
    ∃ s₁, ∀ b, ∃ r, Leads (s, x ++ b) (s₁, r) ∧ Refuses s₁ r := by
  obtain ⟨s₁, r, hchain, hend⟩ := leads_cases hs x
  rcases hend with rfl | ⟨hlt, rfl⟩ | ⟨rfl, rfl⟩ | hrefuses
  · obtain ⟨sl, hsl⟩ := (leads_kHeaders_iff hs).mp hchain
    exact absurd ⟨sl, r, hsl⟩ hno
  · exact absurd (hchain.lf_mem hx hlt) List.not_mem_nil
  · exact absurd (hchain.lf_mem hx (by decide)) (by decide)
  · have hr := hchain.lf_mem hx hrefuses.1
    exact ⟨s₁, fun b => ⟨r ++ b, hchain.append (.inl hrefuses.2.1), hrefuses.append hr b⟩⟩

end Append

end Camille
