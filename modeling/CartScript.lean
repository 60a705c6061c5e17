import CartScript.Main
import CartScript.Proofs.Assembly.Bounds
import CartScript.Proofs.Assembly.Exchange
import CartScript.Proofs.Assembly.Puts
import CartScript.Proofs.Registry.Manifest
import CartScript.Proofs.Script.FinalNewline
import CartScript.Proofs.Script.Halting
import CartScript.Proofs.Script.Splice
import CartScript.Proofs.Symbols.Fixpoint
import CartScript.Proofs.Listing.Addresses
import CartScript.Proofs.Listing.ReadBack
import CartScript.Proofs.Assembly.Unbounded
import CartScript.Proofs.Listing.Ranking
import CartScript.Proofs.Script.Replacing
import CartScript.Proofs.Token.Newlines
import CartScript.Proofs.Image.Handles
import CartScript.Proofs.Registry.Numbers
import CartScript.Proofs.Token.Progress
