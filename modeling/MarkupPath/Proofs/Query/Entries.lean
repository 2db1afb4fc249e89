import MarkupPath.Proofs.Query.Lines
import MarkupPath.Query.Request

/-!
# The entries of a request

A request for paths is checked first, and `Fails` and `Passes` say what the checks
come to. Both ways of asking for paths are refused for the same reason. If no check
fails, there is an entry for each offset: nothing where there is no element, and
otherwise the segments of the element in the chosen format. The text that joins the
entries leaves out those that show nothing. All of this holds for every library, whatever
it refuses.
-/

namespace MarkupPath

/-- A format has its text for all segments, as long as a custom one has a template. -/
theorem XPath.Format.exists_render? {format : Format} {options : RenderOptions}
    (templated : format = .custom → options.template ≠ none) (segments : List Segment) :
    ∃ path, format.render? options segments = some path := by
  cases format with
  | custom =>
      rcases Option.ne_none_iff_exists'.mp (templated rfl) with ⟨template, isTemplate⟩
      exact ⟨_, by rw [render?, isTemplate, Option.map_some]⟩
  | full => exact ⟨_, rfl⟩
  | compact => exact ⟨_, rfl⟩
  | namesOnly => exact ⟨_, rfl⟩
  | namedFull => exact ⟨_, rfl⟩
  | namedCompact => exact ⟨_, rfl⟩
  | breadcrumb => exact ⟨_, rfl⟩

namespace Query

/-- The format that is meant: the one that is named, and otherwise that of the settings. -/
def chosenFormat? (settings : Settings) : Option String → Option XPath.Format
  | some name => XPath.Format.ofName? name
  | none => some settings.format

/-- The entries that show something, in their order. -/
def shown (entries : List (Option String)) : List String :=
  (entries.filterMap id).filter (!·.isEmpty)

theorem shown_eq_nil_iff {entries : List (Option String)} :
    shown entries = [] ↔ ∀ entry ∈ entries, entry = none ∨ entry = some "" := by
  simp only [shown, List.filter_eq_nil_iff, List.mem_filterMap, id_eq]
  constructor
  · intro hidden entry member
    cases entry with
    | none => exact Or.inl rfl
    | some path =>
        have isEmpty := hidden path ⟨some path, member, rfl⟩
        exact Or.inr (by simpa using isEmpty)
  · rintro hidden path ⟨entry, member, rfl⟩
    rcases hidden _ member with isNone | isEmpty
    · exact nomatch isNone
    · simp [Option.some.inj isEmpty]

theorem join_of_several (writeTexts : List String → Except Json.Fault String) (joining : Joining)
    {results : List String} (several : 2 ≤ results.length) :
    join writeTexts joining results =
      match joining with
      | .lines => .ok ("\n".intercalate results)
      | .json => (writeTexts results).mapError .unwritable := by
  match results with
  | [] => simp at several
  | [single] => simp at several
  | first :: second :: rest => rfl

theorem join_eq_noResults_iff {writeTexts : List String → Except Json.Fault String}
    {joining : Joining} {results : List String} :
    join writeTexts joining results = .error .noResults ↔ results = [] := by
  match results with
  | [] => exact iff_of_true rfl rfl
  | [single] => simp [join]
  | first :: second :: rest =>
      rw [join_of_several writeTexts joining (by simp)]
      cases joining with
      | lines => simp
      | json => cases writeTexts (first :: second :: rest) <;> simp [Except.mapError]

namespace Request

/-- A request passes all checks, and the chosen format is this one. -/
structure Passes (library : Library) (request : Request) (format : Option String) (text : String)
    (settings : Settings) (chosen : XPath.Format) : Prop where
  decoded : Utf8.decode request.document = .ok text
  read : Settings.read library.parseSettings request.settings = .ok settings
  known : chosenFormat? settings format = some chosen
  allowed : settings.refuses chosen = false
  templated : chosen = .custom → settings.templates ≠ []

/-- A check fails with this error, and those before it do not fail. -/
inductive Fails (library : Library) (request : Request) (format : Option String) : Error → Prop
  | undecoded {fault : Utf8.Fault} (faulty : Utf8.decode request.document = .error fault) :
      Fails library request format (.invalidUtf8 fault)
  | unread {text : String} {fault : Json.Fault} (decoded : Utf8.decode request.document = .ok text)
      (malformed : Settings.read library.parseSettings request.settings = .error fault) :
      Fails library request format (.invalidSettings fault)
  | unknown {text name : String} {settings : Settings}
      (decoded : Utf8.decode request.document = .ok text)
      (read : Settings.read library.parseSettings request.settings = .ok settings)
      (named : format = some name) (noFormat : XPath.Format.ofName? name = none) :
      Fails library request format (.unknownFormat name)
  | disabled {text : String} {settings : Settings} {chosen : XPath.Format}
      (decoded : Utf8.decode request.document = .ok text)
      (read : Settings.read library.parseSettings request.settings = .ok settings)
      (known : chosenFormat? settings format = some chosen)
      (refused : settings.refuses chosen = true) :
      Fails library request format (.formatDisabled chosen)
  | untemplated {text : String} {settings : Settings}
      (decoded : Utf8.decode request.document = .ok text)
      (read : Settings.read library.parseSettings request.settings = .ok settings)
      (known : chosenFormat? settings format = some .custom)
      (bare : settings.templates = []) :
      Fails library request format .missingTemplate

theorem fails_or_passes (library : Library) (request : Request) (format : Option String) :
    (∃ error, request.Fails library format error) ∨
      ∃ text settings chosen, request.Passes library format text settings chosen := by
  cases decoded : Utf8.decode request.document with
  | error fault => exact Or.inl ⟨_, .undecoded decoded⟩
  | ok text =>
    cases read : Settings.read library.parseSettings request.settings with
    | error fault => exact Or.inl ⟨_, .unread decoded read⟩
    | ok settings =>
      cases known : chosenFormat? settings format with
      | none =>
          cases format with
          | none => exact nomatch known
          | some name => exact Or.inl ⟨_, .unknown decoded read rfl known⟩
      | some chosen =>
          by_cases refused : settings.refuses chosen = true
          · exact Or.inl ⟨_, .disabled decoded read known refused⟩
          · by_cases bare : chosen = .custom ∧ settings.templates = []
            · rcases bare with ⟨rfl, bare⟩
              exact Or.inl ⟨_, .untemplated decoded read known bare⟩
            · refine Or.inr ⟨text, settings, chosen, decoded, read, known, ?_, ?_⟩
              · exact Bool.eq_false_iff.mpr refused
              · exact fun custom untemplated => bare ⟨custom, untemplated⟩

section Open

variable {library : Library} {request : Request} {text : String} {settings : Settings}
  (decoded : Utf8.decode request.document = .ok text)
  (read : Settings.read library.parseSettings request.settings = .ok settings)

include decoded read

theorem open?_eq (force : Bool) :
    request.open? library force =
      .ok (text, settings, settings.skipSetFor library.readPattern request.path force) := by
  simp [open?, decodeText, decoded, readSettings, read, Except.mapError, bind, Except.bind]

theorem contextFor_eq (format : Option String) (force : Bool) :
    request.contextFor library format force =
      readFormat? format >>= fun format =>
        (Context.create settings format
          (settings.skipSetFor library.readPattern request.path force)).map (text, ·) := by
  rw [contextFor, open?_eq decoded read]
  rfl

theorem segmentsAt_eq (offset : Nat) :
    request.segmentsAt library offset =
      Query.segmentsAt text offset settings
        (settings.skipSetFor library.readPattern request.path false) := by
  rw [segmentsAt, open?_eq decoded read]
  rfl

end Open

theorem exists_readFormat? {settings : Settings} {format : Option String} {chosen : XPath.Format}
    (known : chosenFormat? settings format = some chosen) :
    ∃ read, readFormat? format = .ok read ∧ read.getD settings.format = chosen := by
  cases format with
  | none => exact ⟨none, rfl, Option.some.inj known⟩
  | some name =>
      have found : XPath.Format.ofName? name = some chosen := known
      exact ⟨some chosen, by simp [readFormat?, readFormat, found, Except.map], rfl⟩

variable {library : Library} {request : Request} {format : Option String}

theorem contextFor_of_fails {error : Error} (fails : request.Fails library format error)
    (force : Bool) : request.contextFor library format force = .error error := by
  cases fails with
  | undecoded faulty =>
      simp [contextFor, open?, decodeText, faulty, Except.mapError, bind, Except.bind]
  | unread decoded malformed =>
      simp [contextFor, open?, decodeText, decoded, readSettings, malformed, Except.mapError, bind,
        Except.bind]
  | unknown decoded read named noFormat =>
      rw [contextFor_eq decoded read, named]
      simp [readFormat?, readFormat, noFormat, Except.map, bind, Except.bind]
  | disabled decoded read known refused =>
      rcases exists_readFormat? known with ⟨named, isRead, rfl⟩
      rw [contextFor_eq decoded read, isRead]
      simp [Context.create, refused, bind, Except.bind, Except.map]
  | @untemplated _ settings decoded read known bare =>
      rcases exists_readFormat? known with ⟨named, isRead, custom⟩
      have allowed : settings.refuses .custom = false := rfl
      rw [contextFor_eq decoded read, isRead]
      simp [Context.create, custom, allowed, bare, bind, Except.bind, Except.map]

variable {text : String} {settings : Settings} {chosen : XPath.Format}

theorem exists_context (passes : request.Passes library format text settings chosen)
    (force : Bool) :
    ∃ context, request.contextFor library format force = .ok (text, context) ∧
      context.settings = settings ∧ context.format = chosen ∧
      context.skip = settings.skipSetFor library.readPattern request.path force := by
  rcases exists_readFormat? passes.known with ⟨named, isRead, rfl⟩
  have complete : ¬(named.getD settings.format = .custom ∧ settings.templates = []) :=
    fun bare => passes.templated bare.1 bare.2
  rw [contextFor_eq passes.decoded passes.read, isRead]
  simp only [Context.create, passes.allowed, complete, bind, Except.bind]
  exact ⟨_, rfl, rfl, rfl, rfl⟩

/-- The entry for an offset says what is known of the segments there. -/
structure Answers (library : Library) (request : Request) (settings : Settings)
    (chosen : XPath.Format) (offset : Nat) (entry : Option String) : Prop where
  settled : request.segmentsAt library offset = .error .noElement ∨
    ∃ segments, request.segmentsAt library offset = .ok segments
  absent : entry = none ↔ request.segmentsAt library offset = .error .noElement
  present : ∀ segments, request.segmentsAt library offset = .ok segments →
    ∃ path, chosen.render? settings.renderOptions segments = some path ∧ entry = some path

end Request

namespace Context

theorem exists_xpathAt_of_segmentsAt {context : Context} {text : String} {offset : Nat}
    (inElement : ¬(Element.enclosingIn text offset).isEmpty = true) :
    ∃ path, context.format.render? context.settings.renderOptions
        (context.segmentsAt text offset) = some path ∧
      context.xpathAt text offset = some path := by
  have templated : context.format = .custom → context.settings.renderOptions.template ≠ none := by
    intro custom bare
    exact context.templated custom (List.head?_eq_none_iff.mp bare)
  rcases XPath.Format.exists_render? templated (context.segmentsAt text offset) with
    ⟨path, rendered⟩
  exact ⟨path, rendered, by rw [xpathAt, if_neg inElement, rendered]⟩

end Context

namespace Request

variable {library : Library} {request : Request} {format : Option String} {text : String}
  {settings : Settings} {chosen : XPath.Format}

theorem answers_xpathAt (passes : request.Passes library format text settings chosen)
    {context : Context} (sameSettings : context.settings = settings)
    (sameFormat : context.format = chosen)
    (sameSkip : context.skip = settings.skipSetFor library.readPattern request.path false)
    (offset : Nat) :
    request.Answers library settings chosen offset (context.xpathAt text offset) := by
  have segments := segmentsAt_eq passes.decoded passes.read offset
  subst sameSettings sameFormat
  rw [← sameSkip, Query.segmentsAt] at segments
  by_cases nothing : (Element.enclosingIn text offset).isEmpty = true
  · have noEntry : context.xpathAt text offset = none := if_pos nothing
    have refused : request.segmentsAt library offset = .error .noElement :=
      segments.trans (if_pos nothing)
    refine ⟨Or.inl refused, iff_of_true noEntry refused, ?_⟩
    intro other found
    exact nomatch refused.symm.trans found
  · have found : request.segmentsAt library offset = .ok (context.segmentsAt text offset) :=
      segments.trans (if_neg nothing)
    rcases Context.exists_xpathAt_of_segmentsAt nothing with ⟨path, rendered, isEntry⟩
    refine ⟨Or.inr ⟨_, found⟩, iff_of_false ?_ ?_, ?_⟩
    · intro noEntry
      exact nomatch isEntry.symm.trans noEntry
    · intro refused
      exact nomatch found.symm.trans refused
    · intro other isOther
      rw [found] at isOther
      exact ⟨path, Except.ok.inj isOther ▸ rendered, isEntry⟩

/--
A request is refused for one reason, whether its paths are asked for together or each by itself.
Otherwise there is an entry for each offset: nothing exactly where no element is, and else the
segments there in the chosen format. Asked for together, the entries are those that show something:
without any of these there is no result, and several of them are lines or what the library writes.
-/
theorem entries_of_request (library : Library) (request : Request) (offsets : List Nat)
    (format : Option String) :
    ((∃ error, request.Fails library format error) ∨
      ∃ text settings chosen, request.Passes library format text settings chosen) ∧
    (∀ error, request.Fails library format error →
      request.xpathAt library offsets format false = .error error ∧
        request.xpathAtEach library offsets format = .error error) ∧
    ∀ text settings chosen, request.Passes library format text settings chosen →
      ∃ entries, request.xpathAtEach library offsets format = .ok entries ∧
        List.Forall₂ (request.Answers library settings chosen) offsets entries ∧
        (request.xpathAt library offsets format false = .error .noResults ↔
          ∀ entry ∈ entries, entry = none ∨ entry = some "") ∧
        (∀ single, shown entries = [single] →
          request.xpathAt library offsets format false = .ok single) ∧
        (2 ≤ (shown entries).length → settings.joining = .lines →
          request.xpathAt library offsets format false =
            .ok ("\n".intercalate (shown entries))) ∧
        (2 ≤ (shown entries).length → settings.joining = .json →
          request.xpathAt library offsets format false =
            (library.writeTexts (shown entries)).mapError .unwritable) := by
  refine ⟨fails_or_passes library request format, ?_, ?_⟩
  · intro error fails
    have refused := contextFor_of_fails fails false
    constructor
    · rw [xpathAt, refused]
      rfl
    · rw [xpathAtEach, refused]
      rfl
  · intro text settings chosen passes
    rcases exists_context passes false with ⟨context, opened, sameSettings, sameFormat, sameSkip⟩
    have each : request.xpathAtEach library offsets format =
        .ok (offsets.map (context.xpathAt text)) := by
      rw [xpathAtEach, opened]
      rfl
    have together : request.xpathAt library offsets format false =
        join library.writeTexts settings.joining (shown (offsets.map (context.xpathAt text))) := by
      rw [xpathAt, opened, shown, List.filterMap_map, ← sameSettings]
      rfl
    refine ⟨_, each, ?_, ?_, ?_, ?_, ?_⟩
    · rw [List.forall₂_map_right_iff, List.forall₂_same]
      exact fun offset _ => answers_xpathAt passes sameSettings sameFormat sameSkip offset
    · rw [together, join_eq_noResults_iff, shown_eq_nil_iff]
    · intro single isSingle
      rw [together, isSingle]
      rfl
    · intro several lines
      rw [together, join_of_several library.writeTexts settings.joining several, lines]
    · intro several json
      rw [together, join_of_several library.writeTexts settings.joining several, json]

/-- No element is behind the text, and no format has an empty name. -/
theorem entries_of_request_as_json :
    ∃ request : Request, request.settings = "\x7b\"multicursorFormat\": \"json\"\x7d" ∧
      request.xpathAtEach .standard [1, 12, 4] none =
        .ok [some "/a[1]", none, some "/a[1]/b[1]"] ∧
      request.xpathAt .standard [1, 12, 4] none false =
        .ok "[\n  \"/a[1]\",\n  \"/a[1]/b[1]\"\n]" ∧
      request.xpathAt .standard [1, 12, 4] (some "") false = .error (.unknownFormat "") := by
  let request : Request :=
    { document := "<a><b/></a>".toUTF8
      settings := "\x7b\"multicursorFormat\": \"json\"\x7d" }
  have decoded : Utf8.decode request.document = .ok "<a><b/></a>" := by decide +kernel
  have read : Settings.read Library.standard.parseSettings request.settings =
      .ok { joining := .json } := by
    decide +kernel
  have each : request.xpathAtEach .standard [1, 12, 4] none =
      .ok [some "/a[1]", none, some "/a[1]/b[1]"] := by
    decide +kernel
  have passes : request.Passes .standard none "<a><b/></a>" { joining := .json } .full :=
    ⟨decoded, read, rfl, by decide, nofun⟩
  rcases (entries_of_request .standard request [1, 12, 4] none).2.2 _ _ _ passes with
    ⟨entries, isEach, -, -, -, -, severalAsJson⟩
  rcases Except.ok.inj (each.symm.trans isEach) with rfl
  refine ⟨request, rfl, each, ?_, ?_⟩
  · exact severalAsJson (by decide) rfl
  · have fails : request.Fails .standard (some "") (.unknownFormat "") :=
      .unknown decoded read rfl (by decide)
    exact ((entries_of_request .standard request [1, 12, 4] (some "")).2.1 _ fails).1

end Request

end Query

end MarkupPath
