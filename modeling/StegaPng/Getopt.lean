import Mathlib.Data.List.Basic

/-! `getopt_long` of the C library: the options of a command line, in the order in which
the calls return them. -/

namespace Getopt

abbrev Word := List UInt8

structure LongOption (O : Type) where
  name : Word
  takesArgument : Bool
  opt : O

/-- The options of a program, by character and by name. -/
structure Table (O : Type) where
  short : UInt8 → Option (O × Bool)
  long : List (LongOption O)

/-- What one call returns. -/
inductive Event (O : Type) where
  | argument (o : O) (optarg : Word)
  | flag (o : O)
  /-- The call returns `'?'`. -/
  | unknown
  deriving DecidableEq

/-- What a word of the command line is. -/
inductive Kind (O : Type) where
  | operand
  /-- The word `--`. -/
  | terminator
  | options (es : List (Event O))
  /-- The last option of the word takes the next word. -/
  | wants (es : List (Event O)) (o : O)

variable {O : Type}

def Kind.after (e : Event O) : Kind O → Kind O
  | .options es => .options (e :: es)
  | .wants es o => .wants (e :: es) o
  | k => k

/-- The characters behind a single dash. -/
def Table.cluster (t : Table O) : Word → Kind O
  | [] => .options []
  | c :: cs =>
    match t.short c with
    | none => (t.cluster cs).after .unknown
    | some (o, false) => (t.cluster cs).after (.flag o)
    | some (o, true) => if cs = [] then .wants [] o else .options [.argument o cs]

/-- A name may be cut short where that leaves one option. -/
def Table.lookup (t : Table O) (key : Word) : Option (LongOption O) :=
  match t.long.find? (·.name = key) with
  | some l => some l
  | none =>
    match t.long.filter (key.isPrefixOf ·.name) with
    | [l] => some l
    | _ => none

/-- What stands behind two dashes: a name, and perhaps `=` and a value. -/
def Table.longWord (t : Table O) (text : Word) : Kind O :=
  match t.lookup (text.takeWhile (· ≠ 61)) with
  | none => .options [.unknown]
  | some l =>
    match l.takesArgument, text.dropWhile (· ≠ 61) with
    | true, [] => .wants [] l.opt
    | true, _ :: value => .options [.argument l.opt value]
    | false, [] => .options [.flag l.opt]
    | false, _ :: _ => .options [.unknown]

def Table.classify (t : Table O) : Word → Kind O
  | [45, 45] => .terminator
  | 45 :: 45 :: text => t.longWord text
  | 45 :: c :: cs => t.cluster (c :: cs)
  | _ => .operand

/-- The calls, up to the one that returns -1. Operands are stepped over, unless
`POSIXLY_CORRECT` is set. -/
def Table.getoptLong (t : Table O) (posixly_correct : Bool) : List Word → List (Event O)
  | [] => []
  | word :: rest =>
    match t.classify word with
    | .operand => if posixly_correct then [] else t.getoptLong posixly_correct rest
    | .terminator => []
    | .options es => es ++ t.getoptLong posixly_correct rest
    | .wants es o =>
      match rest with
      | [] => es ++ [.unknown]
      | optarg :: rest => es ++ .argument o optarg :: t.getoptLong posixly_correct rest

/-- The last event that says something about a setting. -/
def last {α : Type} (f : Event O → Option α) (es : List (Event O)) : Option α :=
  (es.filterMap f).getLast?

theorem last_cons {α : Type} (f : Event O → Option α) (e : Event O) (es : List (Event O)) :
    last f (e :: es) = (last f es).or (f e) := by
  rw [last, last]
  cases he : f e with
  | none => rw [List.filterMap_cons_none he, Option.or_none]
  | some a =>
    rw [List.filterMap_cons_some he, List.getLast?_cons]
    cases (es.filterMap f).getLast? <;> rfl

/-- The argument of the option, where it makes sense. -/
def argumentOf [DecidableEq O] {α : Type} (o : O) (read : Word → Option α) : Event O → Option α
  | .argument o' optarg => if o' = o then read optarg else none
  | _ => none

end Getopt
