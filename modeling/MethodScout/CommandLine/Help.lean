/-!
# Help
-/

namespace MethodScout

/-- What the command prints about its version. -/
def versionText : String := "flashlight 0.1.0\n"

def helpLines : List String :=
  ["Scan compiled classes and list methods worth instrumenting",
   "",
   "Usage: flashlight [OPTIONS] [PATH]...",
   "",
   "Arguments:",
   "  [PATH]...  Class roots (directories) or archives (jar/zip) to scan",
   "",
   "Options:",
   "      --call-threshold <N>     [default: 10]",
   "      --branch-threshold <N>   [default: 5]",
   "      --exclude <NAME>         Additional method name to leave out of every category",
   "      --no-default-exclusions  Do not exclude constructors, static initializers, toString, hashCode and equals",
   "      --exclude-accessors      Exclude get*/set*/is* accessors",
   "      --exclude-lambdas        Exclude synthetic lambda bodies (lambda$*)",
   "      --include-nested         Also scan nested and anonymous classes",
   "      --skip-invalid           Warn about and skip classes that fail to decode instead of aborting",
   "      --property <NAME>        [default: otel.instrumentation.methods.include]",
   "      --env-var <NAME>         [default: OTEL_INSTRUMENTATION_METHODS_INCLUDE]",
   "  -f, --format <FORMAT>        [default: text] [possible values: text, json, property, env]",
   "  -o, --output <FILE>          ",
   "      --log-level <LEVEL>      [default: warn] [possible values: error, warn, info, debug, trace]",
   "  -h, --help                   Print help",
   "  -V, --version                Print version",
   "",
   "Gradle example:",
   "  flashlight **/build/classes/java/main/",
   "Maven example:",
   "  flashlight **/target/classes/"]

/-- What the command prints about its use. -/
def helpText : String := String.join (helpLines.map fun line => line ++ "\n")

end MethodScout
