import Mihomo.Go.Text

/-!
# Rule sets as text (rules/provider/provider.go, rulesParse)

A rule set in YAML is not decoded as a whole: the first line that a list can follow is its head, and
each later line is decoded under the head alone. The strategy is the list of what was passed to
`Insert` since its `Reset`.
-/

namespace Mihomo.Rules.Payload
open Go List

structure RulePayload where
  payload : List Str
  rules : List Str

inductive RuleFormat where
  | yamlRule
  | textRule
  | mrsRule

inductive ParseError where
  | noPayload
  | invalidFormat
  | mrs (text : Str)
  deriving DecidableEq

/-- The pieces the loop cuts from `buf`, each with the newline that ends it. -/
def lines : Str → List Str
  | [] => []
  | b :: buf =>
    if b = 0x0A then [b] :: lines buf
    else
      match lines buf with
      | [] => [[b]]
      | line :: rest => (b :: line) :: rest

def ended (line : Str) : Bool := line.getLast? == some 0x0A

def skipped (line : Str) : Bool := trimSpace line == [] || (trimSpace line).head? == some 0x23

/-- `firstLine` is what `firstLineBuffer` holds between two lines; its length is `firstLineLength`. -/
structure Vars where
  firstLine : Str := []
  strategy : List Str := []

def Vars.insert (v : Vars) (str : Str) : Vars :=
  if str = [] then v else { v with strategy := v.strategy ++ [str] }

-- `yaml.Unmarshal` as a function of two lines, although `schema` is used again; none is an error.
variable (unmarshal : Str → Str → Option RulePayload)

def found (line : Str) : Bool :=
  (unmarshal line (ascii "  - ''")).any fun schema => schema.rules ≠ [] || schema.payload ≠ []

/-- The first payload goes before the first rule. -/
def RulePayload.first (schema : RulePayload) : Option Str := schema.payload.head? <|> schema.rules.head?

def yamlLine (v : Vars) (line : Str) : Vars :=
  if skipped line then v
  else if v.firstLine.length = 0 then
    if found unmarshal line then { v with firstLine := line } else v
  else
    match unmarshal v.firstLine line with
    | none => v
    | some schema => v.insert (schema.first.getD [])

def textLine (v : Vars) (line : Str) : Vars :=
  if skipped line || (ascii "//").isPrefixOf (trimSpace line) then v else v.insert (trimSpace line)

/-- What the loop does with the lines that are left. -/
def parseLines (format : RuleFormat) : Vars → List Str → Except ParseError Vars
  | v, [] => .ok v
  | v, line :: rest =>
    match format with
    | .yamlRule =>
      if !ended line && v.firstLine.length = 0 then .error .noPayload
      else parseLines .yamlRule (yamlLine unmarshal v line) rest
    | .textRule => parseLines .textRule (textLine v line) rest
    | .mrsRule => .error .invalidFormat

def rulesParse (rulesMrsParse : Str → Except ParseError (List Str)) (buf : Str) (format : RuleFormat) :
    Except ParseError (List Str) :=
  match format with
  | .mrsRule => rulesMrsParse buf
  | format => (parseLines unmarshal format {} (lines buf)).map Vars.strategy

/-! ### The head and its entries -/

def isHead (line : Str) : Bool := !skipped line && found unmarshal line

def fromHead (buf : Str) : List Str := (lines buf).dropWhile (!isHead unmarshal ·)

/-- The item of a line that is one list entry under the head. -/
def entry (head line : Str) : Option Str :=
  if skipped line then none else (unmarshal head line).bind RulePayload.first

/-- An error without a head, and otherwise the items of the entries after it. -/
def Parsed (buf : Str) (r : Except ParseError (List Str)) : Prop :=
  match fromHead unmarshal buf with
  | [] => r = .error .noPayload
  | head :: rest => r = .ok (rest.filterMap (entry unmarshal head))

/-- A head ends in a newline and no entry after it is empty; without a head the last line has no newline. -/
def Readable (buf : Str) : Prop :=
  match fromHead unmarshal buf with
  | [] => ∃ line ∈ (lines buf).getLast?, ended line = false
  | head :: rest => ended head ∧ ∀ line ∈ rest, entry unmarshal head line ≠ some []

variable {unmarshal} {buf line head : Str} {ls pre rest : List Str} {v : Vars}

theorem ended_of_mem_dropLast (buf : Str) (h : line ∈ (lines buf).dropLast) : ended line := by
  induction buf generalizing line with
  | nil => simp [lines] at h
  | cons b buf ih =>
    unfold lines at h
    split at h
    case isTrue hb =>
      cases hl : lines buf with
      | nil => simp [hl] at h
      | cons l rest =>
        rw [hl, dropLast_cons_cons, mem_cons] at h
        rcases h with rfl | h
        · simp [ended, hb]
        · exact ih (hl ▸ h)
    case isFalse hb =>
      split at h
      · simp at h
      case h_2 l rest hl =>
        cases rest with
        | nil => simp at h
        | cons l' rest =>
          rw [dropLast_cons_cons, mem_cons] at h
          rcases h with rfl | h
          · -- The line was cut with its newline before `b` came in front of it.
            have hended : ended l := ih (by simp [hl])
            cases l with
            | nil => simp [ended] at hended
            | cons c l => simpa [ended] using hended
          · exact ih (by simp [hl, h])

theorem ne_nil_of_isHead (h : isHead unmarshal line) : line.length ≠ 0 := by
  rintro hnil
  rw [length_eq_zero_iff.mp hnil] at h
  simp [isHead, skipped, trimSpace, trimLeftSpace, trimRightSpace] at h

theorem yamlLine_of_not_isHead (h : isHead unmarshal line = false) : yamlLine unmarshal {} line = {} := by
  unfold isHead at h
  unfold yamlLine
  cases hs : skipped line <;> simp_all

/-- The lines before the head change nothing, unless one has no newline. -/
theorem parseLines_append (hpre : ∀ line ∈ pre, isHead unmarshal line = false)
    (hended : ∀ line ∈ pre, ended line) :
    parseLines unmarshal .yamlRule {} (pre ++ ls) = parseLines unmarshal .yamlRule {} ls := by
  induction pre with
  | nil => rfl
  | cons line pre ih =>
    rw [forall_mem_cons] at hpre hended
    rw [cons_append, parseLines, yamlLine_of_not_isHead hpre.1, ih hpre.2 hended.2, hended.1]
    rfl

theorem yamlLine_body (hhead : head.length ≠ 0) {strategy : List Str} :
    yamlLine unmarshal ⟨head, strategy⟩ line =
      ⟨head, strategy ++ (entry unmarshal head line).toList.filter (· ≠ [])⟩ := by
  unfold yamlLine entry
  cases skipped line with
  | true => simp
  | false =>
    cases unmarshal head line with
    | none => simp [hhead]
    | some schema =>
      cases hfirst : schema.first with
      | none => simp [hhead, hfirst, Vars.insert]
      | some str => by_cases hstr : str = [] <;> simp [hhead, hfirst, hstr, Vars.insert]

/-- After the head the items go to the strategy, but for the empty ones. -/
theorem parseLines_body (hhead : head.length ≠ 0) (strategy : List Str) :
    parseLines unmarshal .yamlRule ⟨head, strategy⟩ ls =
      .ok ⟨head, strategy ++ (ls.filterMap (entry unmarshal head)).filter (· ≠ [])⟩ := by
  induction ls generalizing strategy with
  | nil => simp [parseLines]
  | cons line ls ih =>
    rw [parseLines, decide_eq_false hhead, yamlLine_body hhead, ih]
    cases hentry : entry unmarshal head line with
    | none => simp [hentry]
    | some str => by_cases hstr : str = [] <;> simp [hentry, hstr]

theorem parseLines_head (hhead : isHead unmarshal head) :
    parseLines unmarshal .yamlRule {} (head :: rest) =
      if ended head then
        .ok ⟨head, (rest.filterMap (entry unmarshal head)).filter (· ≠ [])⟩
      else .error .noPayload := by
  have hline : yamlLine unmarshal {} head = ⟨head, []⟩ := by
    rw [isHead, Bool.and_eq_true, Bool.not_eq_true'] at hhead
    simp [yamlLine, hhead.1, hhead.2]
  cases hended : ended head with
  | false => simp [parseLines, hended]
  | true =>
    rw [parseLines, hended, hline, parseLines_body (ne_nil_of_isHead hhead)]
    simp

theorem parseLines_no_head (hnone : ∀ line ∈ lines buf, isHead unmarshal line = false) :
    parseLines unmarshal .yamlRule {} (lines buf) =
      if ∃ line ∈ (lines buf).getLast?, ended line = false then .error .noPayload else .ok {} := by
  rcases eq_nil_or_concat' (lines buf) with hnil | ⟨pre, last, hlines⟩
  · simp [hnil, parseLines]
  · have hpre : ∀ line ∈ pre, ended line :=
      fun line hline => ended_of_mem_dropLast buf (by simpa [hlines] using hline)
    rw [hlines] at hnone ⊢
    rw [parseLines_append (fun line hline => hnone line (by simp [hline])) hpre]
    have hlast : yamlLine unmarshal {} last = {} := yamlLine_of_not_isHead (hnone last (by simp))
    cases hended : ended last <;> simp [parseLines, hlast]

theorem split_head (unmarshal : Str → Str → Option RulePayload) (ls : List Str) :
    (∀ line ∈ ls, isHead unmarshal line = false) ∧ ls.dropWhile (!isHead unmarshal ·) = [] ∨
      ∃ pre head rest, ls = pre ++ head :: rest ∧ (∀ line ∈ pre, isHead unmarshal line = false) ∧
        isHead unmarshal head ∧ ls.dropWhile (!isHead unmarshal ·) = head :: rest := by
  induction ls with
  | nil => exact .inl ⟨nofun, rfl⟩
  | cons line ls ih =>
    cases hline : isHead unmarshal line with
    | true => exact .inr ⟨[], line, ls, rfl, nofun, hline, by simp [hline]⟩
    | false =>
      rcases ih with ⟨hnone, hdrop⟩ | ⟨pre, head, rest, rfl, hpre, hhead, hdrop⟩
      · exact .inl ⟨forall_mem_cons.mpr ⟨hline, hnone⟩, by simp [hline, hdrop]⟩
      · exact .inr ⟨line :: pre, head, rest, rfl, forall_mem_cons.mpr ⟨hline, hpre⟩, hhead,
          by simp [hline, hdrop]⟩

end Mihomo.Rules.Payload
