import TizenClaw.JsonStorable

/-! Which exception a text that is no JSON is refused with: a number too large for a float is not a
parse error. The reader stops where the parser does. -/
namespace JsonFailure

open ByteString JsonValue JsonDump JsonParse JsonParseUtf8 JsonRoundTrip JsonStorable

inductive Failure where
  | malformed
  | overflow
  deriving DecidableEq, Repr

/-- `outOfRange` is not a `parse_error`. -/
inductive Thrown where
  | json (e : JsonException)
  | outOfRange (id : ℕ)
  deriving DecidableEq, Repr

section Reader

variable (readFloat : Bytes → Option NumberText)

/-- A well-formed number is refused only for its size. -/
def numberFailure (s : Bytes) : Failure :=
  match numberToken s with
  | none => .malformed
  | some t => if (numberOf readFloat t).isNone then .overflow else .malformed

def skipScalar (s : Bytes) : Except Failure Bytes :=
  match parseScalar readFloat s with
  | some (_, r) => .ok r
  | none => .error (numberFailure readFloat s)

mutual

/-- What stands behind a value, or how the parser fails in it. -/
def skipValue : ℕ → Bytes → Except Failure Bytes
  | 0, _ => .error .malformed
  | n + 1, s =>
    match skipWhitespace s with
    | [] => .error .malformed
    | c :: r =>
      if c = 0x5B then
        match skipWhitespace r with
        | [] => .error .malformed
        | d :: r' => if d = 0x5D then .ok r' else skipElements n (d :: r')
      else if c = 0x7B then
        match skipWhitespace r with
        | [] => .error .malformed
        | d :: r' => if d = 0x7D then .ok r' else skipMembers n (d :: r')
      else if c = 0x22 then
        match readString (.text []) r with
        | some (_, r') => .ok r'
        | none => .error .malformed
      else skipScalar readFloat (c :: r)

def skipElements : ℕ → Bytes → Except Failure Bytes
  | 0, _ => .error .malformed
  | n + 1, s =>
    (skipValue n s).bind fun v =>
      match skipWhitespace v with
      | [] => .error .malformed
      | d :: r =>
        if d = 0x2C then skipElements n r
        else if d = 0x5D then .ok r
        else .error .malformed

def skipMembers : ℕ → Bytes → Except Failure Bytes
  | 0, _ => .error .malformed
  | n + 1, s =>
    match skipWhitespace s with
    | [] => .error .malformed
    | c :: r =>
      if c ≠ 0x22 then .error .malformed
      else match readString (.text []) r with
        | none => .error .malformed
        | some (_, k) =>
          match skipWhitespace k with
          | [] => .error .malformed
          | d :: r =>
            if d ≠ 0x3A then .error .malformed
            else (skipValue n r).bind fun v =>
              match skipWhitespace v with
              | [] => .error .malformed
              | d :: r =>
                if d = 0x2C then skipMembers n r
                else if d = 0x7D then .ok r
                else .error .malformed

end

/-- What `json::parse` throws on a text. -/
def failure (s : Bytes) : Thrown :=
  match skipBom s with
  | none => .json .parseError
  | some t => match skipValue readFloat (t.length + 1) t with
    | .error .overflow => .outOfRange 406
    | _ => .json .parseError

/-- `json::parse` with its exceptions. The lexer takes a NUL byte for the end of the text. -/
def parseText (s : Bytes) : Except Thrown Json :=
  let t := s.takeWhile (· ≠ 0)
  match parse readFloat t with
  | .ok j => .ok j
  | .error _ => .error (failure readFloat t)

end Reader

section Agreement

variable {readFloat : Bytes → Option NumberText}

theorem skipScalar_ok (s : Bytes) :
    (skipScalar readFloat s).toOption = (parseScalar readFloat s).map Prod.snd := by
  rw [skipScalar]
  cases parseScalar readFloat s <;> rfl

theorem bind_agrees {α : Type} {x : Except Failure Bytes} {y : Option (Json × Bytes)}
    {f : Bytes → Except Failure Bytes} {g : Json × Bytes → Option (α × Bytes)}
    (h : x.toOption = y.map Prod.snd) (hfg : ∀ v, (f v.2).toOption = (g v).map Prod.snd) :
    (x.bind f).toOption = (y.bind g).map Prod.snd := by
  cases x with
  | error e =>
    cases y with
    | none => rfl
    | some v => cases h
  | ok r =>
    cases y with
    | none => cases h
    | some v =>
      obtain rfl : r = v.2 := Option.some.inj h
      exact hfg v

mutual

/-- The reader comes to the end of the values that the parser accepts, and of no others. -/
theorem skipValue_ok : ∀ (n : ℕ) (s : Bytes),
    (skipValue readFloat n s).toOption = (parseValue readFloat n s).map Prod.snd
  | 0, s => by
    rw [skipValue, parseValue]
    rfl
  | n + 1, s => by
    rw [skipValue, parseValue]
    cases skipWhitespace s with
    | nil => rfl
    | cons c r =>
      dsimp only
      by_cases h1 : c = 0x5B
      · rw [if_pos h1, if_pos h1]
        cases skipWhitespace r with
        | nil => rfl
        | cons d r' =>
          by_cases h2 : d = 0x5D
          · simp only [if_pos h2]
            rfl
          · simp only [if_neg h2, Option.map_map, skipElements_ok n (d :: r')]
            rfl
      · rw [if_neg h1, if_neg h1]
        by_cases h2 : c = 0x7B
        · rw [if_pos h2, if_pos h2]
          cases skipWhitespace r with
          | nil => rfl
          | cons d r' =>
            by_cases h3 : d = 0x7D
            · simp only [if_pos h3]
              rfl
            · simp only [if_neg h3, Option.map_map, skipMembers_ok n (d :: r')]
              rfl
        · rw [if_neg h2, if_neg h2]
          by_cases h3 : c = 0x22
          · rw [if_pos h3, if_pos h3]
            cases readString (.text []) r <;> rfl
          · rw [if_neg h3, if_neg h3]
            exact skipScalar_ok _

theorem skipElements_ok : ∀ (n : ℕ) (s : Bytes),
    (skipElements readFloat n s).toOption = (parseElements readFloat n s).map Prod.snd
  | 0, s => by
    rw [skipElements, parseElements]
    rfl
  | n + 1, s => by
    rw [skipElements, parseElements]
    refine bind_agrees (skipValue_ok n s) fun v => ?_
    cases skipWhitespace v.2 with
    | nil => rfl
    | cons d r =>
      dsimp only
      by_cases h1 : d = 0x2C
      · simp only [if_pos h1, Option.map_map, skipElements_ok n r]
        rfl
      · rw [if_neg h1, if_neg h1]
        by_cases h2 : d = 0x5D
        · rw [if_pos h2, if_pos h2]
          rfl
        · rw [if_neg h2, if_neg h2]
          rfl

theorem skipMembers_ok : ∀ (n : ℕ) (s : Bytes),
    (skipMembers readFloat n s).toOption = (parseMembers readFloat n s).map Prod.snd
  | 0, s => by
    rw [skipMembers, parseMembers]
    rfl
  | n + 1, s => by
    rw [skipMembers, parseMembers]
    cases skipWhitespace s with
    | nil => rfl
    | cons c r =>
      dsimp only
      by_cases h1 : c ≠ 0x22
      · rw [if_pos h1, if_pos h1]
        rfl
      · rw [if_neg h1, if_neg h1]
        cases readString (.text []) r with
        | none => rfl
        | some k =>
          rw [Option.bind_some]
          dsimp only
          cases skipWhitespace k.2 with
          | nil => rfl
          | cons d r =>
            dsimp only
            by_cases h2 : d ≠ 0x3A
            · rw [if_pos h2, if_pos h2]
              rfl
            · rw [if_neg h2, if_neg h2]
              refine bind_agrees (skipValue_ok n r) fun v => ?_
              cases skipWhitespace v.2 with
              | nil => rfl
              | cons d r =>
                dsimp only
                by_cases h3 : d = 0x2C
                · simp only [if_pos h3, Option.map_map, skipMembers_ok n r]
                  rfl
                · rw [if_neg h3, if_neg h3]
                  by_cases h4 : d = 0x7D
                  · rw [if_pos h4, if_pos h4]
                    rfl
                  · rw [if_neg h4, if_neg h4]
                    rfl

end

/-- A text with a number too large in it is none that the parser accepts. -/
theorem parse_of_overflow {s : Bytes} (h : failure readFloat s = .outOfRange 406) (j : Json) :
    parse readFloat s ≠ .ok j := by
  intro hj
  rw [failure] at h
  rw [parse] at hj
  cases hb : skipBom s with
  | none => simp [hb] at h
  | some t =>
    have hagree : (skipValue readFloat (t.length + 1) t).toOption =
        (parseValue readFloat (t.length + 1) t).map Prod.snd := skipValue_ok (t.length + 1) t
    rw [hb] at h hj
    rw [Option.bind_some] at hj
    cases hv : parseValue readFloat (t.length + 1) t with
    | none => simp [hv] at hj
    | some v =>
      rw [hv] at hagree
      cases hs : skipValue readFloat (t.length + 1) t with
      | error e => simp [hs, Except.toOption] at hagree
      | ok r => simp [hs] at h

end Agreement

section Written

variable {readFloat : Bytes → Option NumberText}

/-- A text without a NUL byte is read as a whole. -/
theorem parseText_render {lay : Layout} (hl : WhiteLayout lay) {j : Json}
    (hs : Storable readFloat j) : parseText readFloat (render id lay 0 j) = .ok j := by
  have hparse := parse_render hl hs 0 white_nil white_nil
  rw [List.append_nil, List.nil_append] at hparse
  have hzero : (render id lay 0 j).takeWhile (· ≠ 0) = render id lay 0 j := by
    rw [List.takeWhile_eq_self_iff]
    intro b hb
    have hne : b ≠ 0 := by
      rintro rfl
      exact parse_zero_not_mem hparse hb
    simpa using hne
  rw [parseText, hzero, hparse]

theorem parseText_dump {j : Json} {data : Bytes} (hs : Storable readFloat j)
    (h : dump j = .ok data) : parseText readFloat data = .ok j := by
  rw [dump, dumpWith, if_pos hs.utf8] at h
  obtain rfl := Except.ok.inj h
  exact parseText_render whiteLayout_compact hs

theorem parse_of_parseText {s : Bytes} {j : Json} (h : parseText readFloat s = .ok j) :
    parse readFloat (s.takeWhile (· ≠ 0)) = .ok j := by
  rw [parseText] at h
  split at h
  next j' hj =>
    obtain rfl := Except.ok.inj h
    exact hj
  next => cases h

theorem storable_parseText (hf : ReadsBack readFloat) {s : Bytes} {j : Json}
    (h : parseText readFloat s = .ok j) : Storable readFloat j :=
  storable_parse hf (parse_of_parseText h)

end Written

end JsonFailure
