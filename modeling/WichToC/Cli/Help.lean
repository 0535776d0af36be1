import WichToC.Cli.Form

/-!
# Help

What the program says about itself and about each of its commands: what it is for, how it is
called, and its arguments and options in two columns.
-/

namespace WichToC.Help

variable (env : String → Option String)

/-! ## Columns -/

def blanks (n : Nat) : String :=
  String.ofList (List.replicate n ' ')

/-- Rows of two columns; the second one starts two blanks after the widest entry of the first. -/
def columns (rows : List (String × String)) : String :=
  let width := (rows.map fun (left, _) => left.length).foldl max 0
  String.join (rows.map fun (left, right) =>
    "  " ++ left ++ blanks (width - left.length + 2) ++ right ++ "\n")

/-- Rows under a title. -/
def titled (title : String) (rows : List (String × String)) : String :=
  title ++ ":\n" ++ columns rows

/-- What a text on something says: what it is for, how it is called, and tables. -/
def page (about usage : String) (tables : List String) : String :=
  String.intercalate "\n" ([about ++ "\n", "Usage: wich " ++ usage ++ "\n"] ++ tables)

/-! ## Options -/

/-- An option with the name of its value. -/
def flagText (flag : Flag) : String :=
  "--" ++ flag.long ++ (flag.value.map fun value => " <" ++ value ++ ">").getD ""

/-- The row of an option, with its short name first and where its value comes from last. -/
def flagRow (flag : Flag) : String × String :=
  let short := (flag.short.map fun c => String.ofList ['-', c, ',', ' ']).getD (blanks 4)
  let source := (flag.env.map fun name =>
    "[env: " ++ name ++ "=" ++ (env name).getD "" ++ "]").toList
  let default := (flag.default.map fun value => "[default: " ++ value ++ "]").toList
  (short ++ flagText flag, String.intercalate " " ([flag.about] ++ source ++ default))

/-- The option that asks for help. -/
def helpFlag : Flag where
  long := "help"
  short := some 'h'
  about := "Print help"

/-- The option that asks for the version. -/
def versionFlag : Flag where
  long := "version"
  short := some 'V'
  about := "Print version"

/-! ## Texts -/

/-- What the command `help` is for. -/
def about : String := "Print this message or the help of the given subcommand(s)"

/-- The text on the program. -/
def program : String :=
  let commands := CommandForm.all.map fun form => (form.name, form.about)
  page "Wich to C translator" "<COMMAND>" [
    titled "Commands" (commands ++ [("help", about)]),
    titled "Options" ([helpFlag, versionFlag].map (flagRow fun _ => none))]

/-- How a command is called.  Options that must be given are named. -/
def usage (form : CommandForm) : String :=
  let options := if form.flags.any fun flag => !flag.required then ["[OPTIONS]"] else []
  let required := (form.flags.filter Flag.required).map flagText
  String.intercalate " " ([form.name] ++ options ++ required ++ ["<FILE>"])

/-- The text on a command. -/
def ofForm (form : CommandForm) : String :=
  page form.about (usage form) [
    titled "Arguments" [("<FILE>", "")],
    titled "Options" ((form.flags ++ [helpFlag]).map (flagRow env))]

/-- The text on the command `help`. -/
def onHelp : String :=
  page about "help [COMMAND]..." [
    titled "Arguments" [("[COMMAND]...", "Print help for the subcommand(s)")]]

/-- The text that `help` with further arguments asks for. -/
def ofTopics? : List String → Option String
  | [] => some program
  | ["help"] => some onHelp
  | [name] => (CommandForm.ofName? name).map (ofForm env)
  | _ => none

end WichToC.Help
