import Windoge.Script.Words

/-!
# The settings file

`system_load_settings` reads `/.windoge` line by line and copies each line into a buffer before it
looks at it. The bounded copy `str_strncpy` compares the whole rest of the file with the length of
the line, so it refuses every line that something follows, if only its own newline, and the loader
then looks at whatever the stack held in that buffer. A line that ends in a newline is therefore
understood only if it is too short to mean anything.
-/

namespace Windoge.Settings

open List

open Script (Text text)

/-- The fonts of the kernel. -/
inductive Font
  | ubuntuMono
  | terminus
  | tamzen
  | vgaText
  deriving DecidableEq

/-- `settings_colors`: the value of a text colour in the file and the colour. -/
def settingsColors : List (Text × ℕ) :=
  [(text "gray", 0xFFCCCCCC), (text "white", 0xFFFFFFFF), (text "red", 0xFFFF5555),
   (text "green", 0xFF55FF55), (text "yellow", 0xFFFFED29), (text "blue", 0xFF5555FF),
   (text "magenta", 0xFFFF55FF), (text "cyan", 0xFF55FFFF)]

/-- `settings_fonts`: the value of a font in the file and the font. -/
def settingsFonts : List (Text × Font) :=
  [(text "ubuntu_mono", .ubuntuMono), (text "terminus", .terminus), (text "tamzen", .tamzen),
   (text "pc_ibm", .vgaText), (text "spleen", .vgaText)]

/-- The globals that the settings set; `color` and `font` are what the screen uses. -/
structure Selection where
  selectedColor : ℕ
  savedColor : ℕ
  defaultShellIsBash : Bool
  selectedFontIdx : ℕ
  font : Font
  color : ℕ
  deriving DecidableEq

/-- The settings file as the file system presents it. -/
inductive SettingsFile
  | absent
  | unreadable
  | holds (bytes : List UInt8)

/-- The selection of a colour. -/
def Selection.selectColor (settings : Selection) (i : ℕ) : Selection :=
  { settings with selectedColor := i, savedColor := (settingsColors.map Prod.snd).getD i 0 }

/-- The selection of a font. -/
def Selection.selectFont (settings : Selection) (i : ℕ) : Selection :=
  { settings with selectedFontIdx := i, font := (settingsFonts.map Prod.snd).getD i .vgaText }

/-- `settings_load_value`. -/
def settingsLoadValue (value : Text) (settings : Selection) : Selection :=
  match settingsColors.findIdx? (·.1 = value) with
  | some i => settings.selectColor i
  | none => settings

/-- `settings_load_font_value`. -/
def settingsLoadFontValue (value : Text) (settings : Selection) : Selection :=
  match settingsFonts.findIdx? (·.1 = value) with
  | some i => settings.selectFont i
  | none => settings

/-- What the loader does with the text in its line buffer. -/
def loadLine (line : Text) (settings : Selection) : Selection :=
  if (text "text_color=").isPrefixOf line then settingsLoadValue (line.drop 11) settings
  else if line = text "shell=bash" then { settings with defaultShellIsBash := true }
  else if line = text "shell=dogeshell" then { settings with defaultShellIsBash := false }
  else if (text "font=").isPrefixOf line then settingsLoadFontValue (line.drop 5) settings
  else settings

/-- `str_strncpy`: the text that is copied, if it fits. -/
def strStrncpy (source : Text) (capacity : ℕ) : Option Text :=
  if capacity ≤ source.length then none else some source

/-- `line_buffer` as a text once it has been terminated at the length of the line, given what the
stack held there before. -/
def lineBuffer (stack rest : List UInt8) (length : ℕ) : Text :=
  (((strStrncpy rest (length + 1)).getD stack).take length).takeWhile (· ≠ 0)

/-- A character that ends a line. -/
def isLineEnd (c : UInt8) : Bool := c = 10 || c = 13

/-- The loop over the lines; `stack round` is what the stack holds in the line buffer in a round. -/
def loadLines (stack : ℕ → List UInt8) : ℕ → ℕ → Text → Selection → Selection
  | 0, _, _, settings => settings
  | fuel + 1, round, rest, settings =>
    if rest = [] then settings
    else
      let length := (rest.takeWhile fun c => !isLineEnd c).length
      let loaded := if length < 32 then loadLine (lineBuffer (stack round) rest length) settings
        else settings
      loadLines stack fuel (round + 1) ((rest.drop length).dropWhile isLineEnd) loaded

/-- The built-in settings, while the screen shows a colour. -/
def defaults (color : ℕ) : Selection := ⟨0, 0xFFCCCCCC, false, 3, .vgaText, color⟩

/-- `system_load_settings`. -/
def systemLoadSettings (stack : ℕ → List UInt8) (file : SettingsFile) (color : ℕ) : Selection :=
  match file with
  | .absent => defaults color
  | .unreadable => { defaults color with color := (defaults color).savedColor }
  | .holds bytes =>
    let contents := (bytes.take 127).takeWhile (· ≠ 0)
    let loaded := loadLines stack contents.length 0 contents (defaults color)
    { loaded with color := loaded.savedColor }

/-- The lines that `settings_save` writes. -/
def savedLines (settings : Selection) : List Text :=
  [text "text_color=" ++ (settingsColors.map Prod.fst).getD settings.selectedColor [],
   text "shell=" ++ (if settings.defaultShellIsBash then text "bash" else text "dogeshell"),
   text "font=" ++ (settingsFonts.map Prod.fst).getD settings.selectedFontIdx []]

/-- A file of lines that end in a newline. -/
def fileOf (lines : List Text) : List UInt8 := lines.flatMap (· ++ [10])

/-- A line of the form `key=value` that fits the line buffer. -/
structure KeyValue (line : Text) : Prop where
  equals : (61 : UInt8) ∈ line
  fits : line.length < 32
  plain : ∀ c ∈ line, c ≠ 0 ∧ isLineEnd c = false

/-- The value that the last line with a recognised one assigns. -/
def lastOf {α : Type} (assigns : Text → Option α) (default : α) (lines : List Text) : α :=
  (lines.filterMap assigns).getLastD default

/-- The colour that a line assigns. -/
def assignsColor (line : Text) : Option ℕ :=
  if (text "text_color=").isPrefixOf line then settingsColors.findIdx? (·.1 = line.drop 11) else none

/-- The shell that a line assigns. -/
def assignsShell (line : Text) : Option Bool :=
  if line = text "shell=bash" then some true
  else if line = text "shell=dogeshell" then some false
  else none

/-- The font that a line assigns. -/
def assignsFont (line : Text) : Option ℕ :=
  if (text "font=").isPrefixOf line then settingsFonts.findIdx? (·.1 = line.drop 5) else none

/-- The settings that a file of lines stands for. -/
def meaning (lines : List Text) (color : ℕ) : Selection :=
  let selected := (((defaults color).selectColor (lastOf assignsColor 0 lines)).selectFont
    (lastOf assignsFont 3 lines))
  { selected with
    defaultShellIsBash := lastOf assignsShell false lines
    color := selected.savedColor }

variable {line : Text} {lines : List Text} {settings : Selection} {stack : ℕ → List UInt8}
  {fuel round color : ℕ}

section Short

theorem not_color_of_short (h : line.length < 10) : (text "text_color=").isPrefixOf line = false := by
  rw [Bool.eq_false_iff]
  intro hstart
  have hle := IsPrefix.length_le <| isPrefixOf_iff_prefix.mp hstart
  have hlength : (text "text_color=").length = 11 := by decide
  omega

theorem not_shell_of_short (h : line.length < 10) : line ≠ text "shell=bash" ∧ line ≠ text "shell=dogeshell" := by
  constructor
  · rintro rfl
    contradiction
  · rintro rfl
    contradiction

theorem not_font_of_short (h : line.length < 10) : settingsFonts.findIdx? (·.1 = line.drop 5) = none := by
  have hlong : ∀ f ∈ settingsFonts, 5 < f.1.length := by decide
  rw [findIdx?_eq_none_iff]
  intro f hf
  rw [decide_eq_false_iff_not]
  intro heq
  have hlength := hlong f hf
  rw [heq, length_drop] at hlength
  omega

theorem loadLine_short (h : line.length < 10) : loadLine line settings = settings := by
  obtain ⟨hbash, hdoge⟩ := not_shell_of_short h
  unfold loadLine settingsLoadFontValue
  rw [if_neg (by rw [not_color_of_short h]; decide), if_neg hbash, if_neg hdoge, not_font_of_short h]
  split_ifs <;> rfl

/-- Lines that are all short stand for the built-in settings. -/
theorem meaning_short (h : ∀ line ∈ lines, line.length < 10) :
    meaning lines color = { defaults color with color := (defaults color).savedColor } := by
  have hcolor : lines.filterMap assignsColor = [] := filterMap_eq_nil_iff.mpr fun line hline => by
    rw [assignsColor, if_neg (by rw [not_color_of_short (h line hline)]; decide)]
  have hshell : lines.filterMap assignsShell = [] := filterMap_eq_nil_iff.mpr fun line hline => by
    obtain ⟨hbash, hdoge⟩ := not_shell_of_short (h line hline)
    rw [assignsShell, if_neg hbash, if_neg hdoge]
  have hfont : lines.filterMap assignsFont = [] := filterMap_eq_nil_iff.mpr fun line hline => by
    rw [assignsFont, not_font_of_short (h line hline), ite_self]
  unfold meaning lastOf
  rw [hcolor, hshell, hfont]
  rfl

end Short

section Rounds

theorem fileOf_cons : fileOf (line :: lines) = line ++ 10 :: fileOf lines := by
  rw [fileOf, flatMap_cons, append_assoc, fileOf, singleton_append]

theorem takeWhile_fileOf (h : KeyValue line) :
    ((fileOf (line :: lines)).takeWhile fun c => !isLineEnd c) = line := by
  rw [fileOf_cons, takeWhile_append_of_pos fun c hc => by rw [(h.plain c hc).2]; rfl,
    takeWhile_cons_of_neg (by decide), append_nil]

/-- Behind the first line and the newlines after it the other lines follow. -/
theorem dropWhile_fileOf (hlines : ∀ l ∈ lines, KeyValue l) :
    ((fileOf (line :: lines)).drop line.length).dropWhile isLineEnd = fileOf lines := by
  rw [fileOf_cons, drop_left, dropWhile_cons_of_pos (by decide)]
  cases lines with
  | nil => rfl
  | cons next lines =>
    obtain ⟨hequals, -, hplain⟩ := hlines next mem_cons_self
    cases next with
    | nil => exact absurd hequals not_mem_nil
    | cons c next =>
      have hend := (hplain c mem_cons_self).2
      rw [fileOf, flatMap_cons, append_assoc, cons_append, dropWhile_cons_of_neg (by rw [hend]; decide)]

/-- What the loader takes for a line: the text that the stack happens to hold. -/
def leftover (stack : List UInt8) (length : ℕ) : Text := (stack.take length).takeWhile (· ≠ 0)

theorem length_leftover (stack : List UInt8) (length : ℕ) : (leftover stack length).length ≤ length :=
  (takeWhile_sublist _).length_le.trans ((length_take_le _ _))

theorem lineBuffer_fileOf (held : List UInt8) :
    lineBuffer held (fileOf (line :: lines)) line.length = leftover held line.length := by
  have hlong : line.length + 1 ≤ (fileOf (line :: lines)).length := by
    rw [fileOf, flatMap_cons, length_append, length_append, length_singleton]
    omega
  rw [lineBuffer, strStrncpy, if_pos hlong, Option.getD_none, leftover]

/-- The settings after the rounds of the loop that meet the given lines. -/
def misread (stack : ℕ → List UInt8) : ℕ → List Text → Selection → Selection
  | _, [], settings => settings
  | round, line :: lines, settings =>
    misread stack (round + 1) lines (loadLine (leftover (stack round) line.length) settings)

/-- The loop looks at the stack, once for each line. -/
theorem loadLines_fileOf (hlines : ∀ l ∈ lines, KeyValue l) (hfuel : (fileOf lines).length ≤ fuel) :
    loadLines stack fuel round (fileOf lines) settings = misread stack round lines settings := by
  induction lines generalizing fuel round settings with
  | nil => cases fuel <;> rfl
  | cons line lines ih =>
    have hline := hlines line mem_cons_self
    have hothers := (forall_mem_cons.mp hlines).2
    have hsize : (fileOf (line :: lines)).length = line.length + 1 + (fileOf lines).length := by
      rw [fileOf, flatMap_cons, length_append, length_append, length_singleton, fileOf]
    have hnonempty : fileOf (line :: lines) ≠ [] := fun hnil => by
      rw [hnil, length_nil] at hsize
      omega
    obtain _ | fuel := fuel
    · omega
    rw [loadLines, if_neg hnonempty]
    simp only [takeWhile_fileOf hline, dropWhile_fileOf hothers, hline.fits, if_true, lineBuffer_fileOf]
    rw [ih hothers (by omega), misread]

/-- Loading a file of lines. -/
theorem systemLoadSettings_fileOf (hlines : ∀ l ∈ lines, KeyValue l) (hsize : (fileOf lines).length ≤ 127) :
    systemLoadSettings stack (.holds (fileOf lines)) color = { misread stack 0 lines (defaults color) with
        color := (misread stack 0 lines (defaults color)).savedColor } := by
  have hplain : ∀ c ∈ fileOf lines, c ≠ 0 := by
    intro c hc
    obtain ⟨l, hl, hmem⟩ := mem_flatMap.mp hc
    rcases mem_append.mp hmem with hin | hend
    · exact ((hlines l hl).plain c hin).1
    · rw [mem_singleton.mp hend]
      decide
  have hwhole : ((fileOf lines).take 127).takeWhile (· ≠ 0) = fileOf lines := by
    rw [take_of_length_le hsize, takeWhile_eq_self_iff]
    intro c hc
    exact decide_eq_true (hplain c hc)
  simp only [systemLoadSettings, hwhole, loadLines_fileOf hlines le_rfl]

theorem misread_short (h : ∀ l ∈ lines, l.length < 10) : misread stack round lines settings = settings := by
  induction lines generalizing round with
  | nil => rfl
  | cons line lines ih =>
    have hlength := length_leftover (stack round) line.length
    have hline := h line mem_cons_self
    rw [misread, loadLine_short (by omega), ih (forall_mem_cons.mp h).2]

theorem misread_zeros : misread (fun _ => []) round lines settings = settings := by
  induction lines generalizing round with
  | nil => rfl
  | cons line lines ih =>
    have hnothing : leftover [] line.length = [] := by rw [leftover, take_nil, takeWhile_nil]
    rw [misread, hnothing, loadLine_short (by decide), ih]

/-- A stack that holds the text `shell=bash` sets at most the shell. -/
theorem loadLine_bash (length : ℕ) : loadLine (leftover (text "shell=bash") length) settings =
    if length < 10 then settings else { settings with defaultShellIsBash := true } := by
  split_ifs with hshort
  · have hle := length_leftover (text "shell=bash") length
    exact loadLine_short (by omega)
  have htake : (text "shell=bash").take length = text "shell=bash" := take_of_length_le (le_of_not_gt hshort)
  have hleft : leftover (text "shell=bash") length = text "shell=bash" := by
    rw [leftover, htake]
    decide
  rw [hleft]
  rfl

/-- A stack that holds the text `shell=bash` selects that shell if a line is long enough. -/
theorem misread_bash (h : settings.defaultShellIsBash = true ∨ ∃ l ∈ lines, 10 ≤ l.length) :
    (misread (fun _ => text "shell=bash") round lines settings).defaultShellIsBash = true := by
  induction lines generalizing round settings with
  | nil => exact h.resolve_right fun ⟨l, hl, _⟩ => absurd hl not_mem_nil
  | cons line lines ih =>
    rw [misread, loadLine_bash]
    apply ih
    split_ifs
    · rcases h with hset | ⟨l, hl, hlong⟩
      · exact .inl hset
      · rcases mem_cons.mp hl with rfl | hl
        · omega
        · exact .inr ⟨l, hl, hlong⟩
    · exact .inl rfl

end Rounds

/-- A file of `key=value` lines is loaded as it is meant, whatever the stack holds, exactly if every
line is shorter than ten characters, so that it cannot assign anything. -/
theorem settings_loaded_iff (lines : List Text) (color : ℕ) (hlines : ∀ l ∈ lines, KeyValue l)
    (hsize : (fileOf lines).length ≤ 127) :
    (∀ stack, systemLoadSettings stack (.holds (fileOf lines)) color = meaning lines color) ↔
      ∀ l ∈ lines, l.length < 10 := by
  constructor
  · intro hloaded l hl
    by_contra hlong
    have hzeros := hloaded fun _ => []
    have hbash := hloaded fun _ => text "shell=bash"
    rw [systemLoadSettings_fileOf hlines hsize] at hzeros hbash
    rw [misread_zeros] at hzeros
    rw [← hzeros] at hbash
    have hset := congrArg Selection.defaultShellIsBash hbash
    rw [misread_bash (.inr ⟨l, hl, le_of_not_gt hlong⟩)] at hset
    exact Bool.noConfusion hset
  · intro hshort stack
    rw [systemLoadSettings_fileOf hlines hsize, misread_short hshort, meaning_short hshort]

/-- A file whose lines assign nothing is loaded as the built-in settings. -/
theorem settings_loaded_short : systemLoadSettings (fun _ => text "shell=bash")
    (.holds (fileOf [text "lang=de"])) 0 = meaning [text "lang=de"] 0 := by
  have hline : KeyValue (text "lang=de") := ⟨by decide, by decide, by simp [text, isLineEnd]⟩
  refine (settings_loaded_iff [text "lang=de"] 0 (fun l hl => ?_) (by decide)).mpr (by decide) _
  exact mem_singleton.mp hl ▸ hline

/-- The file that `settings_save` writes for red text, Bash and Terminus is loaded as the built-in
settings if the stack holds zeros. -/
theorem saved_settings_lost :
    ∃ selection : Selection, selection = ⟨2, 0xFFFF5555, true, 1, .terminus, 0xFFFF5555⟩ ∧
      meaning (savedLines selection) selection.color = selection ∧
      systemLoadSettings (fun _ => []) (.holds (fileOf (savedLines selection))) selection.color =
        ⟨0, 0xFFCCCCCC, false, 3, .vgaText, 0xFFCCCCCC⟩ :=
  ⟨_, rfl, by decide, by decide⟩

end Windoge.Settings
