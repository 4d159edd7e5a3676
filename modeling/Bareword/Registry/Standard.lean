import Bareword.Registry.Basic

/-! # The standard commands -/

namespace Bareword.Registry
set_option autoImplicit false

/-- A parameter that is a text and is passed by position. -/
def text (name description : Text) : Parameter := { name, description, type := "string" }

/-- A named parameter that is off unless it is given. -/
def flag (name description : Text) : Parameter :=
  { name, description, type := "boolean", named := true, default := some (.flag false) }

/-- A named parameter that is a number. -/
def count (name description : Text) (n : Int) : Parameter :=
  { name, description, type := "number", named := true, default := some (.integer n) }

/-- A command that is executed by a file of its own name. -/
def command (name description : Text) (params : List Parameter) : Command :=
  { name, description, execute := "commands/" ++ name, params }

/-- The commands that scripts know unless they are given others. -/
def standardCommands : List Command := [
  command "ls" "List the contents of a directory"
    [text "path" "The path to list",
      flag "all" "Show hidden files",
      flag "long" "List in long format",
      flag "short-names" "Only print file names",
      flag "full-paths" "Display full paths"],
  command "cd" "Change the current working directory"
    [text "path" "The path to change to"],
  command "cp" "Copy files or directories"
    [text "source" "Source file or directory",
      text "destination" "Destination path",
      flag "recursive" "Copy recursively",
      flag "verbose" "Verbose output"],
  command "mv" "Move files or directories"
    [text "source" "Source file or directory",
      text "destination" "Destination path",
      flag "verbose" "Verbose output"],
  command "rm" "Remove files or directories"
    [text "path" "Path to remove",
      flag "recursive" "Remove recursively",
      flag "force" "Force removal",
      flag "verbose" "Verbose output"],
  command "mkdir" "Create directories"
    [text "path" "Directory path to create",
      flag "verbose" "Verbose output"],
  command "touch" "Create empty files or update timestamps"
    [text "path" "File path to touch",
      flag "access" "Update access time only",
      flag "modified" "Update modified time only"],
  command "echo" "Display a string"
    [text "text" "Text to display",
      flag "no-newline" "Don't append newline"],
  command "cat" "Display file contents"
    [text "path" "File to display",
      flag "numbered" "Show line numbers"],
  command "head" "Show first lines of input"
    [text "path" "File to read from",
      count "lines" "Number of lines" 10],
  command "tail" "Show last lines of input"
    [text "path" "File to read from",
      count "lines" "Number of lines" 10,
      flag "follow" "Follow file changes"],
  command "grep" "Search for patterns in text"
    [text "pattern" "Pattern to search for",
      flag "ignore-case" "Case insensitive search",
      flag "invert-match" "Invert match",
      flag "line-number" "Show line numbers"],
  command "sort" "Sort input"
    [flag "reverse" "Sort in reverse order",
      flag "ignore-case" "Case insensitive sort",
      flag "numeric" "Numeric sort"],
  command "uniq" "Filter out repeated lines"
    [flag "count" "Show count of occurrences",
      flag "repeated" "Show only repeated lines",
      flag "unique" "Show only unique lines"],
  command "select" "Select specific columns from data"
    [text "columns" "Columns to select"],
  command "where" "Filter data based on conditions"
    [text "condition" "Filter condition"],
  command "group-by" "Group data by column values"
    [text "column" "Column to group by"],
  command "ps" "List running processes"
    [flag "long" "Show detailed information"],
  command "sys" "Show system information"
    [],
  command "which" "Find the location of a command"
    [text "command" "Command to locate",
      flag "all" "Show all matches"]]

def standard : Registry := ofList standardCommands

end Bareword.Registry
