import CommonTools.Gary.Splitters
import CommonTools.Lib.Runs
import CommonTools.Lib.Separator
import CommonTools.Lib.TakeOut
import CommonTools.Lib.Text

/-! # Tags taken out of a page

`html_content` looks for the addresses of pictures and then takes four kinds of tags out of a
line. The tags of a kind are taken out from the left, each one anew from the front of the line. -/
namespace CommonTools.Simhash.Html
open CommonTools.Lib CommonTools.Gary CommonTools.Http

/-! ## `normalize.cpp` -/

def set : List Bytes := [ascii "<img ", ascii "<span class=", ascii "<a href=", ascii "<embed "]

section
variable {line html : Bytes}

end

/-! ## The first loop -/

section
variable {line html1 : Bytes}

end

/-! ## The second loop -/

section
variable {line html : Bytes} {fuel : Nat}

end

/-! ## What the second loop leaves -/

section
variable {html : Bytes}

end

/-! ## The text that is returned -/

end CommonTools.Simhash.Html
