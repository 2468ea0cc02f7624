import MacroSweep.FileTree.Basic

/-! Which ignore file the user has for all repositories. The settings of version control may name
it; they are searched for the one setting and not read as a whole. -/
namespace MacroSweep.Ignore

open Text

def isSettingBlank (c : Char) : Bool :=
  c == ' ' || c == '\n' || c == '\t' || c == '\r' || c == '\x0b' || c == '\x0c'

def skipBlanks (cs : List Char) : List Char := cs.dropWhile isSettingBlank

/-- Whether blanks lead to the end of a line. -/
def endsLine (cs : List Char) : Bool :=
  (cs.takeWhile isSettingBlank).contains '\n' || (skipBlanks cs).isEmpty

/-- Whether blanks lead to the end of a line, perhaps with a quote among them. -/
def endsSetting (cs : List Char) : Bool :=
  endsLine cs || (['"'].isPrefixOf? (skipBlanks cs)).any endsLine

/-- The shortest start without blanks after which a setting ends. -/
def shortestValue? : List Char → Option (List Char)
  | [] => none
  | c :: cs =>
    if isSettingBlank c then none
    else if endsSetting cs then some [c]
    else (shortestValue? cs).map (c :: ·)

/-- The value of a setting, less an opening quote if something follows it. -/
def settingValue? (cs : List Char) : Option (List Char) :=
  (['"'].isPrefixOf? (skipBlanks cs)).bind (shortestValue? ∘ skipBlanks) <|>
    shortestValue? (skipBlanks cs)

/-- The value of the setting, if its name opens a text. -/
def valueAt? (cs : List Char) : Option (List Char) :=
  let name := "excludesfile".toList
  if (cs.take name.length).map Char.toLower = name then
    (['='].isPrefixOf? (skipBlanks (cs.drop name.length))).bind settingValue?
  else none

/-- The first value of the setting in a text. Its name has to open a line, which `atStart` says of
the start of the text. -/
def findValue? (atStart : Bool) : List Char → Option (List Char)
  | [] => none
  | c :: cs =>
    (if atStart then valueAt? (c :: cs) else none) <|>
      findValue? (c == '\n' || atStart && isSettingBlank c) cs

/-- The file that settings name. A tilde stands for the directory of the user. -/
def namedFile? (home : Path) (settings : List UInt8) : Option Path := do
  let value ← findValue? true (settings.map byteChar)
  let text ← decode? (value.map fun c => UInt8.ofNat c.toNat)
  return ⟨String.ofList (text.flatMap fun c => if c = '~' then home.text.toList else [c])⟩

/-- The files with settings of version control, in the directory of the user and in that of all
settings. -/
def settingsFiles (home config : Path) : List Path :=
  [home.join ⟨".gitconfig"⟩, config.join ⟨"git/config"⟩]

/-- The ignore file of the user: the one that settings name, else the usual one. -/
def userFile (tree : FileTree) (home config : Path) : Path :=
  ((settingsFiles home config).findSome? fun path =>
    (tree.read path).toOption.bind (namedFile? home)).getD (config.join ⟨"git/ignore"⟩)

end MacroSweep.Ignore
