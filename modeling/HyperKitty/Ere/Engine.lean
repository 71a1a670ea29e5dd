import HyperKitty.Ere.Receipt
import HyperKitty.Ere.Telemetry

namespace HyperKitty.Ere

open Search
open HyperKitty.Constraints (isWhitespace)

/-- The patterns of the secrets gate. -/
def awsKeyRegex : String := "AKIA[0-9A-Z]\x7b16\x7d"

def stripeSkRegex : String := "sk_(?:live|test)_[A-Za-z0-9_]\x7b20,\x7d"

def githubTokenRegex : String := "(?i)ghp_[A-Za-z0-9_]\x7b15,\x7d"

def privateKeyRegex : String :=
  "-----BEGIN\\s*(PRIVATE|RSA|OPENSSH|EC|DSA|PGP|ENCRYPTED)\\s*KEY"

def passwordRegex : String :=
  "(?i)password\\s*[:=]\\s*['\"\"]?[A-Za-z0-9!@#$%^&*()_\\-+=\\[\\]\x7b\x7d<>]\x7b8,\x7d['\"\"]?"

def apiKeyRegex : String := "(?i)api[-_]?key\\s*[:=]\\s*['\"\"]?[A-Za-z0-9\\-_]\x7b8,\x7d['\"\"]?"

def bearerTokenRegex : String := "(?i)bearer\\s+[A-Za-z0-9\\-._~+/]+=*"

def jwtRegex : String :=
  "eyJ[A-Za-z0-9_-]\x7b10,\x7d\\.eyJ[A-Za-z0-9_-]\x7b10,\x7d\\.[A-Za-z0-9_-]\x7b10,\x7d"

def envSecretRegex : String :=
  "(?i)(secret|token|key)\\s*[:=]\\s*['\"]([A-Za-z0-9\\-_./+=]\x7b20,\x7d)['\"]"

def secretChecks : List (String × String) :=
  [(awsKeyRegex, "AWS access key detected (AKIA...)"),
    (stripeSkRegex, "Stripe secret key detected (sk_live/sk_test)"),
    (githubTokenRegex, "GitHub personal access token detected (ghp_...)"),
    (privateKeyRegex, "Private key marker detected (-----BEGIN PRIVATE/RSA/OPENSSH KEY)"),
    (passwordRegex, "Password in plaintext detected (password=...)"),
    (apiKeyRegex, "API key pattern detected (api_key=...)"),
    (bearerTokenRegex, "Bearer token detected"),
    (jwtRegex, "JWT token detected"),
    (envSecretRegex, "Environment secret pattern detected")]

/-- The patterns of the gate against dynamic code. -/
def jsEvalRegex : String := "\\beval\\s*\\("

def jsExecRegex : String := "\\bexec\\s*\\("

def jsFunctionRegex : String := "new\\s+Function\\s*\\("

def jsTimeoutRegex : String := "(?:set|clear)(?:Timeout|Interval)\\s*\\(\\s*['\"]"

def pythonExecRegex : String := "(?:^|\\s|=)(?:exec|eval)\\s*\\("

def pythonSubprocessRegex : String := "subprocess\\.(?:call|run|Popen)\\s*\\("

def javaRuntimeRegex : String := "(?:Runtime|getRuntime).*\\.exec\\s*\\("

def shellEvalRegex : String := "(?:^|\\s)eval\\s+"

def indirectCallRegex : String := "(?:\\$\\(|`|(?:call|invoke|apply)\\s*\\()"

def evalChecks : List (String × String) :=
  [(jsEvalRegex, "JavaScript eval() detected"),
    (jsExecRegex, "JavaScript exec() detected"),
    (jsFunctionRegex, "Function constructor with dynamic code detected"),
    (jsTimeoutRegex, "setTimeout/setInterval with string detected"),
    (pythonExecRegex, "Python exec() or eval() detected"),
    (pythonSubprocessRegex, "Python subprocess execution detected"),
    (javaRuntimeRegex, "Java Runtime.exec() detected"),
    (shellEvalRegex, "Shell eval command detected"),
    (indirectCallRegex, "Indirect function call or command substitution detected")]

/-- Comment lines are not looked at for dynamic code. -/
def isComment (line : List Char) : Bool :=
  let trimmed := line.dropWhile isWhitespace
  "//".toList.isPrefixOf trimmed || "#".toList.isPrefixOf trimmed

section Lines

variable (isMatch : String → List Char → Bool)

def lineFindings (checks : List (String × String)) (lineNo : Nat) (line : List Char) :
    List String :=
  (checks.filter fun check => isMatch check.1 line).map
    fun (_, what) => s!"Line {lineNo}: {what}"

def checkSecrets (artifact : String) : Bool × List String :=
  let findings := ((lines artifact.toList).zipIdx 1).flatMap fun (line, lineNo) =>
    lineFindings isMatch secretChecks lineNo line
  (findings.isEmpty, findings)

def checkEval (artifact : String) : Bool × List String :=
  let findings := ((lines artifact.toList).zipIdx 1).flatMap fun (line, lineNo) =>
    if isComment line then [] else lineFindings isMatch evalChecks lineNo line
  (findings.isEmpty, findings)

end Lines

/-- The finding about the first `loop {` without a way out in the lines ahead. -/
def loopFindings : List (List Char) → List String
  | [] => []
  | line :: rest =>
    let block := "\n".toList.intercalate ((line :: rest).take 50)
    if contains line "loop \x7b" && !contains block "break" && !contains block "return" then
      ["Potential infinite loop: loop \x7b\x7d without break/return"]
    else loopFindings rest

def checkLoops (artifact : String) : Bool × List String :=
  let cs := artifact.toList
  let findings :=
    (if contains cs "while(true)" || contains cs "while (true)" then
      ["Infinite loop: while(true) detected"] else []) ++
      (if contains cs "for(;;)" || contains cs "for (;;)" then
        ["Infinite loop: for(;;) detected"] else []) ++
      (if contains cs "loop \x7b" then loopFindings (lines cs) else [])
  (findings.isEmpty, findings)

section Engine

variable (sha256 : List UInt8 → Hash) (t : Casing) (isMatch : String → List Char → Bool)

/-- A receipt from the verdicts of all gates on the artifact. -/
def runAll (artifactId artifact intent : String) : Except Error EreReceipt :=
  computeP5 sha256 artifactId artifact intent (checkSecrets isMatch artifact).1
    (checkEval isMatch artifact).1 (checkLoops artifact).1 (checkTelemetry t artifact).1

end Engine

end HyperKitty.Ere
