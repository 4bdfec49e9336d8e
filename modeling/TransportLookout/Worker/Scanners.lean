/-
The command lines of the two scanners of a `masscan_then_nmap` profile:
`nmap_confirmation_command` and the Masscan command `execute_shard` writes out.  The
command of the other mode has no first stage to agree with and is left out.
-/
import TransportLookout.Library.Text
import TransportLookout.Services.Inventory

namespace TransportLookout

/-- `s.split()`. -/
def words (s : String) : List String :=
  ((s.toList.splitOnP Text.isSpace).filter fun word => word ≠ []).map String.ofList

def nmapConfirmationCommand (profile : ScanProfile) (output targets : String) : List String :=
  ["nmap", "-Pn", "-oX", output, "-iL", targets, "-p", profile.ports] ++
    words profile.arguments ++ ["--max-rate", toString profile.maxRate]

def discoveryPorts (ports : String) : String :=
  Text.join ',' ((Text.split ',' ports).map (Text.removePrefix "T:"))

/-- The first stage of mode `masscan_then_nmap`. -/
def masscanCommand (profile : ScanProfile) (cidr discoveryXml : String) : List String :=
  ["masscan", cidr, "-p", discoveryPorts profile.ports, "--rate", toString profile.maxRate,
    "--wait", "5", "-oX", discoveryXml]

end TransportLookout
