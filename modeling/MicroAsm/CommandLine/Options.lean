/-!
# Options

What the command was asked to do.
-/

namespace MicroAsm

structure Options where
  /-- The source, or the object file to disassemble. -/
  file : Option String := none
  config : Option String := none
  out : Option String := none
  listing : Option String := none
  cpu : Option String := none
  /-- The value of the warning flag. -/
  warnings : Option String := none
  disassemble : Bool := false
deriving DecidableEq, Repr, Inhabited

/-- Why the words of a command make no sense. -/
inductive UsageError where
  | unexpected (word : String)
  | missingValue (option : String)
deriving DecidableEq, Repr

def UsageError.text : UsageError → String
  | unexpected word => "unexpected argument '" ++ word ++ "' found"
  | missingValue option => "a value is required for '" ++ option ++ "' but none was supplied"

namespace Options

/-- Sets an option that takes a value. -/
def set? (o : Options) (option value : String) : Option Options :=
  match option with
  | "-c" | "--config" => some { o with config := some value }
  | "-o" | "--out" => some { o with out := some value }
  | "-l" | "--listing" => some { o with listing := some value }
  | "--cpu" => some { o with cpu := some value }
  | "-W" => some { o with warnings := some value }
  | _ => none

/-- Sets an option that takes no value. -/
def flag? (o : Options) (option : String) : Option Options :=
  match option with
  | "-d" | "--disassemble" => some { o with disassemble := true }
  | "-v" | "--verbose" => some o
  | _ => none

/-- The option and the value that a word holds both. -/
def attached? (word : String) : Option (String × String) :=
  match word.toList with
  | '-' :: '-' :: cs =>
    match cs.dropWhile (· != '=') with
    | _ :: value =>
      some (String.ofList ('-' :: '-' :: cs.takeWhile (· != '=')), String.ofList value)
    | [] => none
  | '-' :: c :: '=' :: value => some (String.ofList ['-', c], String.ofList value)
  | '-' :: c :: value =>
    if value.isEmpty then none else some (String.ofList ['-', c], String.ofList value)
  | _ => none

/-- The word is an option rather than the file. -/
def isOption (word : String) : Bool :=
  match word.toList with
  | ['-'] => false
  | '-' :: _ => true
  | _ => false

/-- Takes the file to work on. -/
def withFile (o : Options) (word : String) : Except UsageError Options :=
  if o.file.isSome then .error (.unexpected word) else .ok { o with file := some word }

/-- Takes the words of a command over into options. -/
def ofWords (o : Options) : List String → Except UsageError Options
  | [] => .ok o
  | [word] =>
    if !isOption word then o.withFile word
    else
      match o.flag? word, (attached? word).bind fun (option, value) => o.set? option value with
      | some o, _ => .ok o
      | none, some o => .ok o
      | none, none =>
        .error (if (o.set? word "").isSome then .missingValue word else .unexpected word)
  | word :: value :: rest =>
    if !isOption word then
      match o.withFile word with
      | .ok o => o.ofWords (value :: rest)
      | .error e => .error e
    else
      match o.flag? word, (attached? word).bind fun (option, value) => o.set? option value with
      | some o, _ => o.ofWords (value :: rest)
      | none, some o => o.ofWords (value :: rest)
      | none, none =>
        match o.set? word value with
        | some o => o.ofWords rest
        | none => .error (.unexpected word)

end Options

end MicroAsm
