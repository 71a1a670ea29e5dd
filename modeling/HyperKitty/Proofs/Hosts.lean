import HyperKitty.Ere.Telemetry

namespace HyperKitty.Ere

open Search

/-- A URL starts where the text stands. -/
def StartsUrl (rest : List Char) : Prop :=
  "http://".toList <+: rest ∨ "https://".toList <+: rest

section Host

/-- The authority of a URL stands between its scheme and its path, query or fragment. -/
def authority (url : List Char) : List Char :=
  (if "https://".toList <+: url then url.drop 8 else url.drop 7).takeWhile
    fun c => c ≠ '/' && c ≠ '?' && c ≠ '#'

def withoutUser (authority : List Char) : List Char :=
  (authority.reverse.takeWhile (· ≠ '@')).reverse

def withoutPort (hostPort : List Char) : List Char := hostPort.takeWhile (· ≠ ':')

/-- The host of the URL at the start of the text. -/
def urlHost (rest : List Char) : List Char :=
  withoutPort (withoutUser (authority (urlText rest)))

variable {url rest : List Char}

theorem authority_infix : authority url <:+: url := by
  have hdrop : ∀ n, url.drop n <:+: url := fun n => (List.drop_suffix n url).isInfix
  unfold authority
  apply (List.takeWhile_prefix _).isInfix.trans
  split
  · exact hdrop 8
  · exact hdrop 7

theorem withoutUser_suffix : withoutUser url <:+ url := by
  rw [withoutUser, ← List.reverse_prefix, List.reverse_reverse]
  exact List.takeWhile_prefix _

theorem urlHost_infix : urlHost rest <:+: urlText rest :=
  (List.takeWhile_prefix _).isInfix.trans (withoutUser_suffix.isInfix.trans authority_infix)

end Host

def allowedHosts : List String := allowlistedDomains ++ ["localhost", "127.0.0.1"]

/-- The text of the URL holds one of the allowed names, at whatever place. -/
def namesAllowed (url : List Char) : Bool :=
  isAllowlisted url || contains url "localhost" || contains url "127.0.0.1"

/-- The host of every URL in the artifact is an allowed one. -/
def HostsAllowed (cs : List Char) : Prop :=
  ∀ front rest, cs = front ++ rest → StartsUrl rest →
    ∃ host ∈ allowedHosts, urlHost rest = host.toList

/-- Something but the URLs of the artifact speaks against it. -/
def OtherTelemetry (t : Casing) (cs : List Char) : Prop :=
  usesBeacon cs = true ∨
    (∃ pattern ∈ telemetryPatterns, contains (t.toLowercase cs) pattern = true) ∨
    trackingPixel cs = true

/-- The first URL ends before the artifact does, and holds none of the allowed names. -/
def FirstUrlRefused (cs : List Char) : Prop :=
  ∃ rest, firstUrl cs = some rest ∧ rest.any endsUrl = true ∧ namesAllowed (urlText rest) = false

variable {t : Casing} {artifact : String} {cs rest chars : List Char} {findings : List String}

theorem namesAllowed_iff {url : List Char} :
    namesAllowed url = true ↔ ∃ host ∈ allowedHosts, host.toList <:+: url := by
  simp only [namesAllowed, isAllowlisted, contains, allowedHosts, Bool.or_eq_true, List.any_eq_true,
    decide_eq_true_eq, List.mem_append, or_and_right, exists_or, or_assoc]
  simp

/-- A name that is the host stands in the text of the URL. -/
theorem namesAllowed_of_host {host : String} (hmem : host ∈ allowedHosts)
    (h : urlHost rest = host.toList) : namesAllowed (urlText rest) = true :=
  namesAllowed_iff.mpr ⟨host, hmem, h ▸ urlHost_infix⟩

theorem inspectUrl_eq_nil : inspectUrl cs = [] ↔ ¬ FirstUrlRefused cs := by
  unfold inspectUrl FirstUrlRefused
  cases firstUrl cs with
  | none => simp
  | some rest =>
    have hnames : (!isAllowlisted (urlText rest) && !contains (urlText rest) "localhost" &&
        !contains (urlText rest) "127.0.0.1") = !namesAllowed (urlText rest) := by
      simp [namesAllowed]
    simp only [hnames, Option.some.injEq, exists_eq_left']
    cases rest.any endsUrl <;> cases namesAllowed (urlText rest) <;> simp

theorem firstUrl_some (h : firstUrl cs = some rest) :
    ∃ front, cs = front ++ rest ∧ StartsUrl rest := by
  rw [firstUrl, Option.or_eq_some_iff] at h
  rcases h with h | ⟨-, h⟩
  · obtain ⟨front, hfront, hpre⟩ := findFrom_some h
    exact ⟨front, hfront, Or.inl hpre⟩
  · obtain ⟨front, hfront, hpre⟩ := findFrom_some h
    exact ⟨front, hfront, Or.inr hpre⟩

/-- Nothing is looked at without an `h` before a `t`; with one, the same URL each time. -/
theorem checkExternalRequests_eq_nil : checkExternalRequests cs chars findings = [] ↔
    findings = [] ∧ ("ht".toList <:+: chars → inspectUrl cs = []) := by
  induction chars generalizing findings with
  | nil => simp [checkExternalRequests]
  | cons ch chars ih =>
    have htrigger : "ht".toList <+: ch :: chars ↔ ch = 'h' ∧ chars.head? = some 't' := by
      cases chars <;> simp [List.cons_prefix_cons, eq_comm]
    rw [checkExternalRequests, ih, List.infix_cons_iff, htrigger]
    by_cases hc : ch = 'h' ∧ chars.head? = some 't'
    · rw [if_pos hc, List.append_eq_nil_iff]
      tauto
    · rw [if_neg hc]
      tauto

theorem trigger_of_refused (h : FirstUrlRefused cs) : "ht".toList <:+: cs := by
  obtain ⟨rest, hrest, -⟩ := h
  obtain ⟨front, rfl, hstarts⟩ := firstUrl_some hrest
  refine List.IsInfix.trans (List.IsPrefix.isInfix ?_) (List.suffix_append front rest).isInfix
  rcases hstarts with hpre | hpre
  · exact List.IsPrefix.trans (by decide) hpre
  · exact List.IsPrefix.trans (by decide) hpre

/-- The gate lets pass what has no other mark of telemetry and no refused first URL. -/
theorem checkTelemetry_passed : (checkTelemetry t artifact).1 = true ↔
    ¬ OtherTelemetry t artifact.toList ∧ ¬ FirstUrlRefused artifact.toList := by
  have htriggered : ("ht".toList <:+: artifact.toList → inspectUrl artifact.toList = []) ↔
      ¬ FirstUrlRefused artifact.toList := by
    rw [inspectUrl_eq_nil]
    exact ⟨fun h hr => h (trigger_of_refused hr) hr, fun h _ => h⟩
  rw [checkTelemetry, List.isEmpty_iff, checkExternalRequests_eq_nil, htriggered,
    OtherTelemetry]
  simp [telemetryFindings]

/-- No URL of an artifact that the gate lets pass has any other host. -/
def CoversUrls (t : Casing) (artifact : String) : Prop :=
  (checkTelemetry t artifact).1 = true → HostsAllowed artifact.toList

/-- A URL of the artifact with another host. -/
def Foreign (cs rest : List Char) : Prop :=
  rest <:+ cs ∧ StartsUrl rest ∧ ∀ host ∈ allowedHosts, urlHost rest ≠ host.toList

/-- The gate looks at one URL only, and there not without an end and not past an allowed name,
wherever that stands. -/
inductive Overlooked (cs rest : List Char) : Prop
  | other : firstUrl cs ≠ some rest → Overlooked cs rest
  | unended : rest.any endsUrl = false → Overlooked cs rest
  | named {host : String} : host ∈ allowedHosts → host.toList <:+: urlText rest →
      Overlooked cs rest

theorem hostsAllowed_iff : HostsAllowed cs ↔ ∀ rest, ¬ Foreign cs rest := by
  constructor
  · rintro h rest ⟨⟨front, rfl⟩, hstarts, hother⟩
    obtain ⟨host, hmem, hhost⟩ := h front rest rfl hstarts
    exact hother host hmem hhost
  · intro h front rest hcs hstarts
    by_contra hno
    exact h rest ⟨⟨front, hcs.symm⟩, hstarts, fun host hmem hhost => hno ⟨host, hmem, hhost⟩⟩

/-- What is refused has another host, since a host stands in the text of its URL. -/
theorem foreign_of_refused (h : FirstUrlRefused cs) :
    ∃ rest, Foreign cs rest ∧ ¬ Overlooked cs rest := by
  obtain ⟨rest, hrest, hends, hnames⟩ := h
  obtain ⟨front, hfront, hstarts⟩ := firstUrl_some hrest
  refine ⟨rest, ⟨⟨front, hfront.symm⟩, hstarts, fun host hmem hhost => ?_⟩, fun ho => ?_⟩
  · rw [namesAllowed_of_host hmem hhost] at hnames
    cases hnames
  · cases ho with
    | other hne => exact hne hrest
    | unended hend =>
      rw [hend] at hends
      cases hends
    | named hmem hin =>
      rw [namesAllowed_iff.mpr ⟨_, hmem, hin⟩] at hnames
      cases hnames

/-- The first URL is refused as soon as there is one that is not overlooked. -/
theorem refused_of_seen (h : ¬ Overlooked cs rest) : FirstUrlRefused cs := by
  refine ⟨rest, ?_, ?_, ?_⟩
  · by_contra hne
    exact h (.other hne)
  · by_contra hend
    exact h (.unended (Bool.eq_false_iff.mpr hend))
  · by_contra hnames
    obtain ⟨host, hmem, hin⟩ := namesAllowed_iff.mp (Bool.eq_true_of_not_eq_false hnames)
    exact h (.named hmem hin)

/-- What passes has no foreign URL, exactly where a foreign one that is overlooked
comes with one that is not, or with another mark of telemetry. -/
theorem coversUrls_iff (t : Casing) (artifact : String) : CoversUrls t artifact ↔
    ∀ rest, Foreign artifact.toList rest → Overlooked artifact.toList rest →
      OtherTelemetry t artifact.toList ∨
        ∃ seen, Foreign artifact.toList seen ∧ ¬ Overlooked artifact.toList seen := by
  rw [CoversUrls, checkTelemetry_passed, hostsAllowed_iff]
  constructor
  · intro h rest hforeign _
    by_contra hno
    obtain ⟨htelemetry, hseen⟩ := not_or.mp hno
    exact h ⟨htelemetry, fun hrefused => hseen (foreign_of_refused hrefused)⟩ rest hforeign
  · rintro h ⟨htelemetry, hrefused⟩ rest hforeign
    have hover : Overlooked artifact.toList rest := by
      by_contra hseen
      exact hrefused (refused_of_seen hseen)
    rcases h rest hforeign hover with hother | ⟨seen, -, hseen⟩
    · exact htelemetry hother
    · exact hrefused (refused_of_seen hseen)

/-- An allowed first URL keeps every later one from being looked at. -/
theorem coversUrls_not_always : ¬ ∀ t artifact, CoversUrls t artifact := by
  intro h
  have hpassed : (checkTelemetry .ascii
      "fetch('https://github.com/a'); fetch('https://tracker.example/b');").1 = true := by
    decide +kernel
  obtain ⟨host, hmem, hhost⟩ := h .ascii _ hpassed "fetch('https://github.com/a'); fetch('".toList
    "https://tracker.example/b');".toList (by decide +kernel) (Or.inr (by decide +kernel))
  have hnone : ∀ host ∈ allowedHosts,
      urlHost "https://tracker.example/b');".toList ≠ host.toList := by
    decide +kernel
  exact hnone host hmem hhost

end HyperKitty.Ere
