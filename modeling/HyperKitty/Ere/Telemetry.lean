import HyperKitty.Lib.Search
import HyperKitty.Lib.Casing
import HyperKitty.Constraints.Unicode

namespace HyperKitty.Ere

open Search
open HyperKitty.Constraints (isWhitespace)

def telemetryPatterns : List String :=
  ["google-analytics", "analytics.google", "gtag", "ga.js", "mixpanel", "segment.com", "amplitude",
    "heap.io", "intercom", "fullstory", "datadog", "new relic", "sentry.io", "crashlytics",
    "firebase", "hotjar", "inspectlet", "mouseflow", "kissmetrics", "optimizely"]

def allowlistedDomains : List String :=
  ["github.com", "api.github.com", "raw.githubusercontent.com", "npm.org", "registry.npmjs.org",
    "crates.io", "docs.rs", "locahost", "127.0.0.1"]

def contains (cs : List Char) (pattern : String) : Bool := pattern.toList <:+: cs

def isAllowlisted (url : List Char) : Bool := allowlistedDomains.any (contains url)

/-- What ends a URL in an artifact. -/
def endsUrl (c : Char) : Bool := isWhitespace c || c == '"' || c == '\'' || c == ')'

/-- The URL at the start of the text, up to what ends it. -/
def urlText (rest : List Char) : List Char := rest.takeWhile (!endsUrl ·)

/-- The text from the first `http://` on, or else from the first `https://` on. -/
def firstUrl (artifact : List Char) : Option (List Char) :=
  (findFrom "http://".toList artifact).or (findFrom "https://".toList artifact)

/-- The finding about the first URL, if it ends before the artifact does. -/
def inspectUrl (artifact : List Char) : List String :=
  match firstUrl artifact with
  | none => []
  | some rest =>
    if rest.any endsUrl then
      let url := urlText rest
      if !isAllowlisted url && !contains url "localhost" && !contains url "127.0.0.1" then
        ["External request to non-allowlisted domain: " ++ String.ofList url]
      else []
    else []

/-- Every `h` before a `t` has the first URL of the artifact looked at. -/
def checkExternalRequests (artifact : List Char) : List Char → List String → List String
  | [], findings => findings
  | ch :: chars, findings =>
    checkExternalRequests artifact chars
      (if ch = 'h' ∧ chars.head? = some 't' then findings ++ inspectUrl artifact else findings)

def usesBeacon (artifact : List Char) : Bool := contains artifact "sendBeacon"

def trackingPixel (artifact : List Char) : Bool :=
  (contains artifact "1x1" || contains artifact "1\"" || contains artifact "1'") &&
    (contains artifact "gif" || contains artifact "pixel" || contains artifact "width" ||
      contains artifact "height")

def telemetryFindings (artifactLower : List Char) : List String :=
  (telemetryPatterns.filter (contains artifactLower)).map
    fun pattern => s!"Telemetry pattern '{pattern}' detected"

def checkTelemetry (t : Casing) (artifact : String) : Bool × List String :=
  let cs := artifact.toList
  let findings :=
    (if usesBeacon cs then ["sendBeacon() detected - potential telemetry"] else []) ++
      telemetryFindings (t.toLowercase cs) ++
      (if trackingPixel cs then ["Tracking pixel (1x1 gif/image) detected"] else [])
  let findings := checkExternalRequests cs cs findings
  (findings.isEmpty, findings)

end HyperKitty.Ere
