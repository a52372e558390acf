import LexPaint.Language
import LexPaint.Text.Basic
/-!
# Sample documents

Generated documents with the typical literals, comments and keywords of a language, for measuring.

## Main definitions

* `Language.sampleLines`: the lines that a sample goes through again and again.
* `Language.sample`: a document of so many lines.
-/

namespace LexPaint.Language

/-- The lines that a sample document goes through again and again. -/
def sampleLines : Language → List String
  | .java | .csharp => [
    "public class Sample \x7b",
    "    /* counter",
    "       for the loop */",
    "    private static final int LIMIT = 10; // upper bound",
    "    public String name(int i) \x7b",
    "        if (i > LIMIT) \x7b return \"large \" + i; \x7d",
    "        return 'c' + \"small\";",
    "    \x7d",
    "\x7d"]
  | .javascript => [
    "// helpers",
    "function greet(name) \x7b",
    "    const message = \"Hello, \" + name;",
    "    if (name.length > 3) \x7b return message; \x7d",
    "    /* fall back */ return 'hi';",
    "\x7d"]
  | .python => [
    "def greet(name):",
    "    \"\"\"Say hello.\"\"\"",
    "    if len(name) > 3:  # long names",
    "        return 'Hello, ' + name",
    "    return \"hi\""]
  | .r => [
    "greet <- function(name) \x7b",
    "  # say hello",
    "  if (nchar(name) > 3) return(paste(\"Hello,\", name))",
    "  'hi'",
    "\x7d"]
  | .perl => [
    "my %seen = ();",
    "my @names = qw(alice bob);",
    "foreach my $name (@names) \x7b # each",
    "    print <<\"EOT\";",
    "Hello, $name",
    "EOT",
    "    $seen\x7b$name\x7d = 'yes' if $name =~ m/^a/;",
    "\x7d"]
  | .php => [
    "<?php",
    "function greet($name) \x7b",
    "    // say hello",
    "    $message = \"Hello, \" . $name;",
    "    echo <<<EOT",
    "Dear $name",
    "EOT;",
    "    return $message; # done",
    "\x7d",
    "?>",
    "<p class=\"greeting\">Hi</p>"]
  | .html => [
    "<div class=\"card\" id='main'>",
    "  <!-- greeting -->",
    "  <script>var x = \"a<b\"; if (x) \x7b x = 1; \x7d</script>",
    "  <style>p \x7b margin-top: 0; \x7d</style>",
    "  <p>Hello</p>",
    "</div>"]
  | .xml => [
    "<?xml version=\"1.0\"?>",
    "<!-- items -->",
    "<item name=\"a\" kind='b'>text</item>"]
  | .css => [
    "/* layout */",
    "body \x7b margin: 0; padding-left: 4px; \x7d",
    "a:hover \x7b color: red; border-bottom-width: 1px; \x7d",
    ".card \x7b font-family: \"Segoe UI\"; \x7d"]
  | .plainText => [
    "Plain text, nothing to see here."]

/-- The first `n` lines of a block that starts over whenever it ends; `rest` is what is left of
the block at the moment. -/
def cycleLines (block : List String) : List String → Nat → List String
  | _, 0 => []
  | [], n + 1 =>
    match block with
    | [] => []
    | line :: rest => line :: cycleLines block rest n
  | line :: rest, n + 1 => line :: cycleLines block rest n

/-- A document of so many lines in a language. -/
def sample (l : Language) (lines : Nat) : Text :=
  Text.ofString (String.join ((cycleLines l.sampleLines l.sampleLines lines).map (· ++ "\n")))

end LexPaint.Language
