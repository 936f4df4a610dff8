import PredictionMarket.Market.NumberText
import PredictionMarket.Strategy.StrategyEngine

/-! The command line of `main.cpp`. One loop looks for the strategy and stops at the first
flag; another collects the positional arguments and passes over every flag. -/
namespace PredictionMarket.Main
open Market Strategy

def strategyFlag : ByteString := ascii "--strategy"

def strategyPrefix : ByteString := ascii "--strategy="

def strategyName : StrategySelection → ByteString
  | .momentum => ascii "momentum"
  | .ofi => ascii "ofi"
  | .both => ascii "both"

/-- The comparisons of a value with the supported names. -/
def selectionOf (value : ByteString) : Option StrategySelection :=
  if value = ascii "momentum" then some .momentum
  else if value = ascii "ofi" then some .ofi
  else if value = ascii "both" then some .both
  else none

/-- What `parse_strategy_selection` returns for a value, with `ok`. -/
def returned (value : ByteString) : StrategySelection × Bool :=
  match selectionOf value with
  | some selection => (selection, true)
  | none => (.both, false)

/-- The loop over the arguments, with the `ok` it leaves. -/
def parseStrategySelection : List ByteString → StrategySelection × Bool
  | [] => (.both, true)
  | arg :: args =>
    if strategyPrefix <+: arg then returned (arg.drop strategyPrefix.length)
    else if arg = strategyFlag then
      match args with
      | [] => (.both, false)
      | value :: _ => returned value
    else parseStrategySelection args

/-- The loop that collects positional arguments; it ends at the third. -/
def collectPositional (positional : List ByteString) : List ByteString → List ByteString
  | [] => positional
  | arg :: args =>
    if arg = strategyFlag then
      match args with
      | [] => positional
      | _ :: args => collectPositional positional args
    else if strategyPrefix <+: arg then collectPositional positional args
    else if (positional ++ [arg]).length ≥ 3 then positional ++ [arg]
    else collectPositional (positional ++ [arg]) args

structure Endpoint where
  host : ByteString
  port : ByteString
  target : ByteString
  deriving DecidableEq

structure Configuration where
  selection : StrategySelection
  endpoint : Endpoint

def endpointOf (positional : List ByteString) : Endpoint where
  host := positional[0]?.getD (ascii "example.com")
  port := positional[1]?.getD (ascii "443")
  target := positional[2]?.getD (ascii "/")

/-- `main` up to the first thing it builds; no configuration means `EXIT_FAILURE`. -/
def configure (argv : List ByteString) : Option Configuration :=
  let (selection, ok) := parseStrategySelection (argv.drop 1)
  let positional := collectPositional [] (argv.drop 1)
  if ok then some ⟨selection,endpointOf positional⟩ else none

def IsFlag (arg : ByteString) : Prop := arg = strategyFlag ∨ strategyPrefix <+: arg

/-- A part of a command line that both loops see as one. -/
inductive Word where
  | positional (arg : ByteString) (plain : ¬ IsFlag arg)
  | separate (value : ByteString)
  | joined (value : ByteString)

namespace Word

def render : Word → List ByteString
  | positional arg _ => [arg]
  | separate value => [strategyFlag,value]
  | joined value => [strategyPrefix ++ value]

/-- The strategy that a flag names. -/
def value? : Word → Option ByteString
  | positional _ _ => none
  | separate value | joined value => some value

def positional? : Word → Option ByteString
  | positional arg _ => some arg
  | separate _ | joined _ => none

end Word

/-- A command line, possibly with a flag behind it that has no value. -/
def renderAll (words : List Word) (dangling : Bool) : List ByteString :=
  words.flatMap Word.render ++ if dangling then [strategyFlag] else []

private theorem prefix_ne_flag (value : ByteString) : strategyPrefix ++ value ≠ strategyFlag := by
  intro h
  have hl := congrArg List.length h
  rw [List.length_append] at hl
  have hp : strategyPrefix.length = 11 := rfl
  have hf : strategyFlag.length = 10 := rfl
  omega

private theorem not_prefix_flag : ¬ strategyPrefix <+: strategyFlag := by
  rintro ⟨value,h⟩
  exact prefix_ne_flag value h

private theorem plain_parts {arg : ByteString} (plain : ¬ IsFlag arg) :
    arg ≠ strategyFlag ∧ ¬ strategyPrefix <+: arg := not_or.mp plain

/-- Every command line is made of words, with or without a flag that lacks its value. -/
theorem exists_words : ∀ args : List ByteString, ∃ words dangling, args = renderAll words dangling
  | [] => ⟨[],false,rfl⟩
  | arg :: args => by
    by_cases hflag : arg = strategyFlag
    · match args with
      | [] => exact ⟨[],true,by rw [hflag]; rfl⟩
      | value :: args =>
        obtain ⟨words,dangling,hwords⟩ := exists_words args
        exact ⟨.separate value :: words,dangling,by rw [hflag, hwords]; rfl⟩
    · obtain ⟨words,dangling,hwords⟩ := exists_words args
      by_cases hjoined : strategyPrefix <+: arg
      · obtain ⟨value,rfl⟩ := hjoined
        exact ⟨.joined value :: words,dangling,by rw [hwords]; rfl⟩
      · exact ⟨.positional arg (not_or.mpr ⟨hflag,hjoined⟩) :: words,dangling,by rw [hwords]; rfl⟩

/-- What the first flag asks for. Without a flag both strategies run; a flag without a value
asks for nothing that is supported. -/
def selected (words : List Word) (dangling : Bool) : Option StrategySelection :=
  match words.filterMap Word.value?, dangling with
  | value :: _, _ => selectionOf value
  | [], false => some .both
  | [], true => none

private theorem returned_eq (value : ByteString) :
    returned value = ((selectionOf value).getD .both, (selectionOf value).isSome) := by
  unfold returned
  cases selectionOf value <;> rfl

/-- The first loop sees the flags and nothing else. -/
theorem parseStrategySelection_renderAll (words : List Word) (dangling : Bool) :
    parseStrategySelection (renderAll words dangling) =
      ((selected words dangling).getD .both, (selected words dangling).isSome) := by
  induction words with
  | nil =>
    cases dangling
    · rfl
    · change parseStrategySelection [strategyFlag] = _
      rw [parseStrategySelection, if_neg not_prefix_flag, if_pos rfl]
      rfl
  | cons word words ih =>
    cases word with
    | positional arg plain =>
      obtain ⟨hflag,hjoined⟩ := plain_parts plain
      change parseStrategySelection (arg :: renderAll words dangling) = _
      rw [parseStrategySelection.eq_def]
      simp only [if_neg hjoined, if_neg hflag]
      exact ih
    | separate value =>
      change parseStrategySelection (strategyFlag :: value :: renderAll words dangling) = _
      rw [parseStrategySelection.eq_def]
      simp only [if_neg not_prefix_flag]
      exact returned_eq value
    | joined value =>
      change parseStrategySelection ((strategyPrefix ++ value) :: renderAll words dangling) = _
      rw [parseStrategySelection.eq_def]
      simp only [if_pos (List.prefix_append _ _), List.drop_left]
      exact returned_eq value

/-- The second loop sees the positional arguments and nothing else. -/
theorem collectPositional_renderAll (positional : List ByteString) (few : positional.length < 3)
    (words : List Word) (dangling : Bool) :
    collectPositional positional (renderAll words dangling) =
      (positional ++ words.filterMap Word.positional?).take 3 := by
  induction words generalizing positional with
  | nil =>
    have hnone : collectPositional positional (renderAll [] dangling) = positional := by
      cases dangling
      · rfl
      · change collectPositional positional [strategyFlag] = _
        rw [collectPositional, if_pos rfl]
    rw [hnone, List.filterMap_nil, List.append_nil, List.take_of_length_le few.le]
  | cons word words ih =>
    cases word with
    | positional arg plain =>
      obtain ⟨hflag,hjoined⟩ := plain_parts plain
      change collectPositional positional (arg :: renderAll words dangling) =
        (positional ++ arg :: words.filterMap Word.positional?).take 3
      rw [collectPositional.eq_def]
      simp only [if_neg hflag, if_neg hjoined]
      rw [List.append_cons positional arg (words.filterMap Word.positional?)]
      split_ifs with hthree
      · have hlen : (positional ++ [arg]).length = 3 := by
          rw [List.length_append, List.length_singleton] at hthree ⊢
          omega
        rw [List.take_append_of_le_length hlen.ge, List.take_of_length_le hlen.le]
      · exact ih _ (Nat.lt_of_not_le hthree)
    | separate value =>
      change collectPositional positional (strategyFlag :: value :: renderAll words dangling) = _
      rw [collectPositional, if_pos rfl]
      exact ih positional few
    | joined value =>
      change collectPositional positional ((strategyPrefix ++ value) :: renderAll words dangling) = _
      rw [collectPositional.eq_def]
      simp only [if_neg (prefix_ne_flag value), if_pos (List.prefix_append _ _)]
      exact ih positional few

private theorem endpointOf_take (positional : List ByteString) :
    endpointOf (positional.take 3) = endpointOf positional := by
  simp [endpointOf]

/-- The two loops agree on every command line: it is made of positional arguments and flags, the
first flag alone decides on the strategy, a flag's value is never taken for a positional argument,
and host, port and target are the first three positional ones, wherever the flags stand. -/
theorem command_line_read :
    (∀ args, ∃ words dangling, args = renderAll words dangling) ∧
    ∀ (program : ByteString) (words : List Word) (dangling : Bool),
      configure (program :: renderAll words dangling) =
        (selected words dangling).map fun selection =>
          ⟨selection,endpointOf (words.filterMap Word.positional?)⟩ := by
  refine ⟨exists_words,?_⟩
  intro program words dangling
  have hpositional := collectPositional_renderAll [] (by decide) words dangling
  rw [List.nil_append] at hpositional
  simp only [configure, List.drop_succ_cons, List.drop_zero]
  rw [parseStrategySelection_renderAll, hpositional, endpointOf_take]
  cases selected words dangling <;> rfl

/-- The name that is logged is a value that the command line takes. -/
theorem selectionOf_strategyName (selection : StrategySelection) :
    selectionOf (strategyName selection) = some selection := by
  cases selection <;> rfl

/-- A flag in the middle of the endpoint. -/
example : (configure [ascii "engine",ascii "localhost",ascii "--strategy",ascii "ofi",ascii "8443"]).map
    Configuration.endpoint = some ⟨ascii "localhost",ascii "8443",ascii "/"⟩ := by decide

end PredictionMarket.Main
